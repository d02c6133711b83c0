import OpGrammar.Proofs.Links

/-!
# Groups inside groups

A lexicon holds the groups on the hops of its graph, those that names mean and those it keeps for
later patterns, and with a group the groups on its hops. All of them are made like the graph of a
lexicon, from the empty graph, so their links lead to nodes that are there.
-/

namespace OpGrammar

variable {ν : Type}

/-- The graph of the group is proper, and so are those of the groups inside it. -/
inductive Group.Proper : Group → Prop
  | intro (group : Group) (proper : group.graph.Proper)
    (inner : ∀ (id : Nat) (node : Node Group Unit) hop, group.graph[id]? = some node →
      hop ∈ node.hops → hop.group.Proper) : group.Proper

def Graph.ProperInside (graph : Graph Group ν) : Prop :=
  ∀ (id : Nat) (node : Node Group ν) hop, graph[id]? = some node → hop ∈ node.hops →
    hop.group.Proper

/-- The group that the link goes through, if it does, is proper. -/
def Link.Proper : Link → Prop
  | .chars _ => True
  | .group through _ => through.Proper

theorem Group.Proper.inside {group : Group} (proper : group.Proper) :
    group.graph.ProperInside := by
  cases proper with
  | intro _ proper inner => exact inner

/-! ## Groups that are made -/

theorem Graph.properInside_empty : (Graph.empty : Graph Group ν).ProperInside := by
  intro id node hop present mem
  obtain ⟨inside, rfl⟩ := Array.getElem?_eq_some_iff.1 present
  simp [empty, Node.blank] at mem

theorem Graph.ProperInside.addPattern {graph : Graph Group ν} (inside : graph.ProperInside)
    (proper : graph.Proper) {branches : Branches Link}
    (links : ∀ branch ∈ branches, ∀ piece ∈ branch, piece.atom.Proper) (v : ν) :
    (graph.addPattern branches v).ProperInside := by
  intro id node hop present mem
  rcases addPattern_hop proper branches v id node hop present mem with
    ⟨node', before, old⟩ | ⟨branch, mem', piece, mem'', new⟩
  · exact inside id node' hop before old
  · have made := links branch mem' piece mem''
    rw [new] at made
    exact made

theorem Group.proper_ofBranches {branches : Branches Link}
    (links : ∀ branch ∈ branches, ∀ piece ∈ branch, piece.atom.Proper) (id : GroupId) :
    (Group.ofBranches id branches).Proper :=
  .intro _ (Graph.addPattern_grows Graph.proper_empty branches ()).2
    (Graph.properInside_empty.addPattern Graph.proper_empty links ())

/-! ## Links -/

section Links

variable {meanings : Meanings}

def Meanings.Proper (meanings : Meanings) : Prop :=
  ∀ name group, meanings.group? name = some group → group.Proper

theorem mem_of_forall₂ {α β : Type} {P : β → Prop} {row : List α} {row' : List β}
    (all : List.Forall₂ (fun _ b => P b) row row') : ∀ b ∈ row', P b := by
  induction all with
  | nil => exact List.forall_mem_nil _
  | cons first _ ih => exact List.forall_mem_cons.2 ⟨first, ih⟩

theorem proper_of_freshBranches {pattern : Pattern} {links : Branches Link}
    (made : freshBranches meanings pattern = some links)
    (pieces : ∀ branch ∈ pattern, ∀ piece ∈ branch, ∀ link,
      piece.atom.freshLink meanings = some link → link.Proper) :
    ∀ branch ∈ links, ∀ piece ∈ branch, piece.atom.Proper := by
  have all := forall₂_of_freshBranches (R := fun _ link => link.atom.Proper) made
    fun branch mem piece mem' link made => pieces branch mem piece mem' link.atom made.2
  exact mem_of_forall₂ (all.imp fun _ _ row => mem_of_forall₂ row)

theorem Atom.proper_freshLink (proper : meanings.Proper) {atom : Atom} (well : atom.WellRead)
    (link : Link) (made : atom.freshLink meanings = some link) : link.Proper := by
  induction well generalizing link with
  | char | oneOf =>
    rw [freshLink] at made
    cases made
    trivial
  | reference label name =>
    rw [freshLink] at made
    obtain ⟨group, known, rfl⟩ := Option.map_eq_some_iff.1 made
    exact proper name group known
  | group source inner read parts ih =>
    rw [freshLink] at made
    obtain ⟨branches, inside, rfl⟩ := Option.map_eq_some_iff.1 made
    exact Group.proper_ofBranches (proper_of_freshBranches inside ih) _

theorem Meanings.Proper.links (proper : meanings.Proper) {text : Text} {pattern : Pattern}
    {links : Branches Link} (read : Pattern.read text = .ok pattern)
    (made : freshBranches meanings pattern = some links) :
    ∀ branch ∈ links, ∀ piece ∈ branch, piece.atom.Proper :=
  proper_of_freshBranches made fun branch mem piece mem' =>
    Atom.proper_freshLink proper (wellRead_of_read read branch mem piece mem')

theorem Meanings.Makes.proper {source : Text} {group : Group} (makes : meanings.Makes source group)
    (proper : meanings.Proper) : group.Proper := by
  obtain ⟨inner, read, made⟩ := makes
  exact Atom.proper_freshLink proper (.group source inner read (wellRead_of_read read)) _ made

theorem Meanings.Proper.cons (proper : meanings.Proper) {name : Text} {group : Group}
    {generation : Nat} (new : group.Proper) :
    Meanings.Proper ⟨(name, group) :: meanings.groups, generation⟩ := by
  intro name' group' known
  rw [group?_cons] at known
  split at known
  · cases known
    exact new
  · exact proper name' group' known

end Links

/-! ## Groups that a lexicon holds -/

namespace Lexicon

inductive Holds (lexicon : Lexicon ν) : Group → Prop
  | root (id : Nat) (node : Node Group ν) (hop : Hop Group)
    (present : lexicon.graph[id]? = some node) (mem : hop ∈ node.hops) : lexicon.Holds hop.group
  | named (name : Text) (group : Group) (known : lexicon.meanings.group? name = some group) :
    lexicon.Holds group
  | kept (source : Text) (group : Group) (found : lexicon.inlineGroups.lookup source = some group) :
    lexicon.Holds group
  | inner (group : Group) (holds : lexicon.Holds group) (id : Nat) (node : Node Group Unit)
    (hop : Hop Group) (present : group.graph[id]? = some node) (mem : hop ∈ node.hops) :
    lexicon.Holds hop.group

theorem extend_proper_groups {lexicon : Lexicon ν} (proper : lexicon.graph.Proper)
    (coherent : Coherent lexicon.meanings lexicon.inlineGroups)
    (inside : lexicon.graph.ProperInside) (names : lexicon.meanings.Proper) (entry : Entry ν) :
    (lexicon.extend entry).graph.ProperInside ∧ (lexicon.extend entry).meanings.Proper := by
  cases entry with
  | pattern text value =>
    rw [extend_pattern]
    have cases := insert_cases lexicon text value
    generalize insert text value lexicon = result at cases
    cases cases with
    | refused | abandoned => exact ⟨inside, names⟩
    | inserted pattern branches groups _ read _ _ links =>
      have links := names.links read (fresh_of_links coherent read links).1
      exact ⟨inside.addPattern proper links value, names⟩
  | meaning name text =>
    rw [extend_meaning]
    have cases := setMeaning_cases lexicon name text
    generalize setMeaning name text lexicon = result at cases
    cases cases with
    | refused | abandoned => exact ⟨inside, names⟩
    | first pattern branches groups _ read links | changed pattern branches groups _ read links =>
      have links := names.links read (fresh_of_links coherent read links).1
      exact ⟨inside, names.cons (Group.proper_ofBranches links _)⟩

theorem ofEntries_proper_groups (entries : List (Entry ν)) :
    (ofEntries entries).graph.ProperInside ∧ (ofEntries entries).meanings.Proper := by
  induction entries using List.reverseRecOn with
  | nil => exact ⟨Graph.properInside_empty, fun _ _ known => nomatch known⟩
  | append_singleton entries entry ih =>
    rw [ofEntries_concat]
    have coherent := ofEntries_coherent entries
    exact extend_proper_groups (ofEntries_proper entries) coherent ih.1 ih.2 entry

theorem Holds.proper {entries : List (Entry ν)} {group : Group}
    (holds : (ofEntries entries).Holds group) : group.Proper := by
  have proper := ofEntries_proper_groups entries
  induction holds with
  | root id node hop present mem => exact proper.1 id node hop present mem
  | named name group known => exact proper.2 name group known
  | kept source group found =>
    exact (ofEntries_coherent entries source group found).proper proper.2
  | inner group _ id node hop present mem ih => exact ih.inside id node hop present mem

end Lexicon

end OpGrammar
