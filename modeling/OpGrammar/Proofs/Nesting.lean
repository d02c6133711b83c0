import OpGrammar.Proofs.Identity
import OpGrammar.Proofs.InnerGroups

/-!
# How groups nest

An entry makes groups of what names mean at that time, and of nothing else. So a lexicon never holds
two groups with one id, and no group has its own id somewhere inside.
-/

namespace OpGrammar

variable {ν : Type}

def Group.Nests (inner outer : Group) : Prop :=
  ∃ (id : Nat) (node : Node Group Unit), outer.graph[id]? = some node ∧
    ∃ hop ∈ node.hops, hop.group = inner

theorem Group.nests_wellFounded : WellFounded Group.Nests := by
  refine ⟨fun group => ?_⟩
  induction group using Group.hops_induction with
  | step group ih =>
    refine ⟨group, ?_⟩
    rintro _ ⟨id, node, present, hop, mem, rfl⟩
    exact ih node (Array.mem_of_getElem? present) hop mem

/-! ## What is offered -/

section Offers

variable {meanings : Meanings}

theorem Atom.offers_of_freshLink {atom : Atom} (well : atom.WellRead) {group : Group}
    {label : Option Text} (made : atom.freshLink meanings = some (.group group label)) :
    meanings.Offers group := by
  cases well with
  | char | oneOf =>
    rw [freshLink] at made
    cases made
  | reference label name =>
    rw [freshLink] at made
    obtain ⟨group, known, same⟩ := Option.map_eq_some_iff.1 made
    cases same
    exact .named name known
  | group source inner read =>
    have whole := made
    rw [freshLink] at made
    obtain ⟨branches, -, same⟩ := Option.map_eq_some_iff.1 made
    cases same
    exact .inline source ⟨inner, read, whole⟩

theorem offers_of_freshBranches {text : Text} {pattern : Pattern} {branches : Branches Link}
    (read : Pattern.read text = .ok pattern)
    (fresh : freshBranches meanings pattern = some branches) :
    ∀ branch ∈ branches, ∀ piece ∈ branch, ∀ group label, piece.atom = .group group label →
      meanings.Offers group := by
  have all := forall₂_of_freshBranches (R := fun _ link => ∀ group label,
    link.atom = .group group label → meanings.Offers group) fresh
    fun branch mem piece mem' link made group label same =>
      Atom.offers_of_freshLink (wellRead_of_read read branch mem piece mem') (same ▸ made.2)
  exact mem_of_forall₂ (all.imp fun _ _ row => mem_of_forall₂ row)

theorem Group.Nests.of_branches {inner : Group} {id : GroupId} {branches : Branches Link}
    (nests : inner.Nests (.ofBranches id branches)) :
    ∃ branch ∈ branches, ∃ piece ∈ branch, ∃ label, piece.atom = .group inner label := by
  obtain ⟨place, node, present, hop, mem, rfl⟩ := nests
  rcases Graph.addPattern_hop Graph.proper_empty branches () place node hop present mem with
    ⟨node', before, old⟩ | ⟨branch, mem, piece, mem', same⟩
  · obtain ⟨inside, rfl⟩ := Array.getElem?_eq_some_iff.1 before
    simp [Graph.empty, Node.blank] at old
  · exact ⟨branch, mem, piece, mem', hop.label, same⟩

theorem Meanings.Makes.branches {source : Text} {group : Group}
    (makes : meanings.Makes source group) :
    ∃ pattern branches, Pattern.read source = .ok pattern ∧
      freshBranches meanings pattern = some branches ∧ group = .ofBranches group.id branches := by
  obtain ⟨inner, read, made⟩ := makes
  rw [Atom.freshLink] at made
  obtain ⟨branches, fresh, same⟩ := Option.map_eq_some_iff.1 made
  cases same
  exact ⟨inner, branches, read, fresh, rfl⟩

end Offers

namespace Lexicon

/-! ## What an entry adds -/

section Step

variable {lexicon : Lexicon ν} {group : Group}

theorem Holds.nests {inner : Group} (holds : lexicon.Holds group) (nests : inner.Nests group) :
    lexicon.Holds inner := by
  obtain ⟨id, node, present, hop, mem, rfl⟩ := nests
  exact .inner group holds id node hop present mem

/-- The group is held, or a pattern that comes now can use it. -/
def Has (lexicon : Lexicon ν) (group : Group) : Prop :=
  lexicon.Holds group ∨ lexicon.meanings.Offers group

theorem Has.nests {inner : Group} (has : lexicon.Has group) (nests : inner.Nests group) :
    lexicon.Has inner := by
  rcases has with holds | offers
  · exact .inl (holds.nests nests)
  · cases offers with
    | named name known => exact .inl ((Holds.named name group known).nests nests)
    | inline source makes =>
      obtain ⟨pattern, branches, read, fresh, same⟩ := makes.branches
      rw [same] at nests
      obtain ⟨branch, mem, piece, mem', label, atom⟩ := nests.of_branches
      exact .inr (offers_of_freshBranches read fresh branch mem piece mem' inner label atom)

/-- The entry gives the name this group, made of a pattern that is read now. -/
def Gives (lexicon : Lexicon ν) (group : Group) : Entry ν → Prop
  | .pattern _ _ => False
  | .meaning name text => ∃ pattern branches generation, Pattern.read text = .ok pattern ∧
      freshBranches lexicon.meanings pattern = some branches ∧
      group = .ofBranches (.named name generation) branches ∧
      (lexicon.extend (.meaning name text)).meanings =
        ⟨(name, group) :: lexicon.meanings.groups, generation⟩ ∧
      (lexicon.knows name = false ∧ generation = lexicon.meanings.generation ∨
        generation = lexicon.meanings.generation + 1)

theorem Gives.nests {entry : Entry ν} {inner : Group} (gives : lexicon.Gives group entry)
    (nests : inner.Nests group) : lexicon.Has inner := by
  cases entry with
  | pattern => exact gives.elim
  | meaning name text =>
    obtain ⟨pattern, branches, generation, read, fresh, rfl, -⟩ := gives
    obtain ⟨branch, mem, piece, mem', label, atom⟩ := nests.of_branches
    exact .inr (offers_of_freshBranches read fresh branch mem piece mem' inner label atom)

theorem hop_extend (coherent : Coherent lexicon.meanings lexicon.inlineGroups) (entry : Entry ν)
    {id : Nat} {node : Node Group ν} {hop : Hop Group}
    (present : (lexicon.extend entry).graph[id]? = some node) (mem : hop ∈ node.hops)
    (proper : lexicon.graph.Proper) : lexicon.Has hop.group := by
  rcases extend_graph lexicon entry with
    same | ⟨text, value, pattern, branches, groups, -, -, read, links, same⟩
  · rw [same] at present
    exact .inl (.root id node hop present mem)
  · rw [same] at present
    rcases Graph.addPattern_hop proper branches value id node hop present mem with
      ⟨node', before, old⟩ | ⟨branch, mem, piece, mem', atom⟩
    · exact .inl (.root id node' hop before old)
    · have fresh := (fresh_of_links coherent read links).1
      exact .inr (offers_of_freshBranches read fresh branch mem piece mem' _ _ atom)

theorem kept_extend (coherent : Coherent lexicon.meanings lexicon.inlineGroups) (entry : Entry ν)
    {source : Text} (found : (lexicon.extend entry).inlineGroups.lookup source = some group) :
    lexicon.Has group := by
  have made {groups : InlineGroups} (current : Coherent lexicon.meanings groups)
      (found : groups.lookup source = some group) : lexicon.Has group :=
    .inr (.inline source (current source group found))
  cases entry with
  | pattern text value =>
    rw [extend_pattern] at found
    have cases := insert_cases lexicon text value
    generalize insert text value lexicon = result at cases found
    cases cases with
    | refused => exact made coherent found
    | abandoned e pattern groups read links =>
      exact made (coherent_of_error coherent read links) found
    | inserted pattern branches groups _ read _ _ links =>
      exact made (fresh_of_links coherent read links).2 found
  | meaning name text =>
    rw [extend_meaning] at found
    have cases := setMeaning_cases lexicon name text
    generalize setMeaning name text lexicon = result at cases found
    cases cases with
    | refused => exact made coherent found
    | abandoned e pattern groups read links =>
      exact made (coherent_of_error coherent read links) found
    | first pattern branches groups _ read links =>
      exact made (fresh_of_links coherent read links).2 found
    | changed => cases found

theorem meanings_extend (coherent : Coherent lexicon.meanings lexicon.inlineGroups)
    (entry : Entry ν) : (lexicon.extend entry).meanings = lexicon.meanings ∨
      ∃ name text group, entry = .meaning name text ∧ lexicon.Gives group entry := by
  cases entry with
  | pattern text value =>
    left
    rw [extend_pattern]
    have cases := insert_cases lexicon text value
    generalize insert text value lexicon = result at cases
    cases cases <;> rfl
  | meaning name text =>
    have after := extend_meaning lexicon name text
    have cases := setMeaning_cases lexicon name text
    generalize setMeaning name text lexicon = result at cases after
    cases cases with
    | refused | abandoned => exact .inl (by rw [after])
    | first pattern branches groups unknown read links =>
      exact .inr ⟨name, text, _, rfl, pattern, branches, _, read,
        (fresh_of_links coherent read links).1, rfl, by rw [after], .inl ⟨unknown, rfl⟩⟩
    | changed pattern branches groups _ read links =>
      exact .inr ⟨name, text, _, rfl, pattern, branches, _, read,
        (fresh_of_links coherent read links).1, rfl, by rw [after], .inr rfl⟩

theorem tidy_extend (tidy : lexicon.meanings.Tidy)
    (coherent : Coherent lexicon.meanings lexicon.inlineGroups) (entry : Entry ν) :
    (lexicon.extend entry).meanings.Tidy := by
  rcases meanings_extend coherent entry with same | ⟨name, text, given, rfl, gives⟩
  · rwa [same]
  · obtain ⟨_, branches, generation, -, -, rfl, after, new⟩ := gives
    rw [after]
    refine tidy.cons name generation ?_ rfl
    rcases new with ⟨-, rfl⟩ | rfl
    · exact le_rfl
    · exact Nat.le_succ _

theorem holds_extend (coherent : Coherent lexicon.meanings lexicon.inlineGroups)
    (proper : lexicon.graph.Proper) {entry : Entry ν}
    (holds : (lexicon.extend entry).Holds group) :
    lexicon.Has group ∨ lexicon.Gives group entry := by
  induction holds with
  | root id node hop present mem => exact .inl (hop_extend coherent entry present mem proper)
  | kept source group found => exact .inl (kept_extend coherent entry found)
  | inner group _ id node hop present mem ih =>
    have nests : hop.group.Nests group := ⟨id, node, present, hop, mem, rfl⟩
    exact .inl (ih.elim (·.nests nests) (·.nests nests))
  | named name group known =>
    rcases meanings_extend coherent entry with same | ⟨name', text, given, rfl, gives⟩
    · rw [same] at known
      exact .inl (.inl (.named name group known))
    · obtain ⟨-, -, generation, -, -, -, after, -⟩ := id gives
      rw [after, Meanings.group?_cons] at known
      split at known
      · cases known
        exact .inr gives
      · exact .inl (.inl (.named name group known))

end Step

theorem recalls_extend {lexicon : Lexicon ν}
    (coherent : Coherent lexicon.meanings lexicon.inlineGroups) {group : Group}
    (recalls : lexicon.meanings.Recalls group) (entry : Entry ν) :
    (lexicon.extend entry).meanings.Recalls group := by
  rcases meanings_extend coherent entry with same | ⟨name, text, given, rfl, gives⟩
  · rwa [same]
  · obtain ⟨_, branches, generation, -, -, rfl, after, new⟩ := gives
    rw [after]
    rcases new with ⟨unknown, rfl⟩ | rfl
    · exact recalls.grows (lexicon.meanings.grows_cons name _ unknown)
    · exact recalls.changed name rfl

/-! ## What is held -/

/-- The groups of a lexicon are built of branches, and known by their ids. -/
structure Identifies (lexicon : Lexicon ν) : Prop where
  tidy : lexicon.meanings.Tidy
  built : ∀ group, lexicon.Holds group → ∃ branches, group = .ofBranches group.id branches
  recalls : ∀ group, lexicon.Holds group → lexicon.meanings.Recalls group
  unique : ∀ group group', lexicon.Holds group → lexicon.Holds group' → group.id = group'.id →
    group = group'

section Identifies

variable {lexicon : Lexicon ν} {group group' : Group} {entry : Entry ν}

theorem Identifies.built_has (identifies : lexicon.Identifies) (has : lexicon.Has group) :
    ∃ branches, group = .ofBranches group.id branches := by
  rcases has with holds | offers
  · exact identifies.built group holds
  · cases offers with
    | named name known => exact identifies.built group (.named name group known)
    | inline source makes =>
      obtain ⟨-, branches, -, -, same⟩ := makes.branches
      exact ⟨branches, same⟩

theorem Identifies.recalls_has (identifies : lexicon.Identifies) (has : lexicon.Has group) :
    lexicon.meanings.Recalls group :=
  has.elim (identifies.recalls group) (·.recalls identifies.tidy)

theorem Identifies.unique_has (identifies : lexicon.Identifies) (has : lexicon.Has group)
    (has' : lexicon.Has group') (same : group.id = group'.id) : group = group' := by
  rcases has with holds | offers
  · rcases has' with holds' | offers'
    · exact identifies.unique group group' holds holds' same
    · exact offers'.eq_of_id identifies.tidy (identifies.recalls group holds) same
  · exact (offers.eq_of_id identifies.tidy (identifies.recalls_has has') same.symm).symm

theorem Gives.id_ne (gives : lexicon.Gives group entry)
    (recalls : lexicon.meanings.Recalls group') : group.id ≠ group'.id := by
  intro same
  cases entry with
  | pattern => exact gives
  | meaning name text =>
    obtain ⟨_, branches, generation, -, -, rfl, -, new⟩ := gives
    obtain ⟨early, current, known, -⟩ :=
      (Meanings.recalls_named name generation same.symm).1 recalls
    rcases new with ⟨unknown, -⟩ | rfl
    · simp [knows, Meanings.knows, known] at unknown
    · omega

theorem Gives.unique (gives : lexicon.Gives group entry) (gives' : lexicon.Gives group' entry) :
    group = group' := by
  cases entry with
  | pattern => exact gives.elim
  | meaning name text =>
    obtain ⟨_, _, _, _, _, _, after, _⟩ := gives
    obtain ⟨_, _, _, _, _, _, after', _⟩ := gives'
    simpa using congrArg Meanings.groups (after.symm.trans after')

theorem Identifies.extend (identifies : lexicon.Identifies) (proper : lexicon.graph.Proper)
    (coherent : Coherent lexicon.meanings lexicon.inlineGroups) (entry : Entry ν) :
    (lexicon.extend entry).Identifies := by
  have tidy := tidy_extend identifies.tidy coherent entry
  refine ⟨tidy, fun group holds => ?_, fun group holds => ?_, fun group group' holds holds' => ?_⟩
  · rcases holds_extend coherent proper holds with has | gives
    · exact identifies.built_has has
    · cases entry with
      | pattern => exact gives.elim
      | meaning name text =>
        obtain ⟨-, branches, generation, -, -, rfl, -, -⟩ := gives
        exact ⟨branches, rfl⟩
  · rcases holds_extend coherent proper holds with has | gives
    · exact recalls_extend coherent (identifies.recalls_has has) entry
    · cases entry with
      | pattern => exact gives.elim
      | meaning name text =>
        obtain ⟨_, branches, generation, -, -, -, after, -⟩ := gives
        have known : (lexicon.extend (.meaning name text)).meanings.group? name = some group := by
          rw [after, Meanings.group?_cons, if_pos rfl]
        exact (Meanings.Offers.named name known).recalls tidy
  · intro same
    rcases holds_extend coherent proper holds with has | gives <;>
      rcases holds_extend coherent proper holds' with has' | gives'
    · exact identifies.unique_has has has' same
    · exact absurd same.symm (gives'.id_ne (identifies.recalls_has has))
    · exact absurd same (gives.id_ne (identifies.recalls_has has'))
    · exact gives.unique gives'

end Identifies

theorem ofEntries_identifies (entries : List (Entry ν)) : (ofEntries entries).Identifies := by
  induction entries using List.reverseRecOn with
  | nil =>
    have none (group : Group) : ¬(empty : Lexicon ν).Holds group := by
      intro holds
      induction holds with
      | root id node hop present mem =>
        obtain ⟨inside, rfl⟩ := Array.getElem?_eq_some_iff.1 present
        simp [empty, Graph.empty, Node.blank] at mem
      | named name group known => cases known
      | kept source group found => cases found
      | inner _ _ _ _ _ _ _ ih => exact ih
    exact ⟨fun _ _ known => (by cases known), fun group holds => absurd holds (none group),
      fun group holds => absurd holds (none group),
      fun group _ holds => absurd holds (none group)⟩
  | append_singleton entries entry ih =>
    rw [ofEntries_concat]
    exact ih.extend (ofEntries_proper entries) (ofEntries_coherent entries) entry

theorem Holds.of_transGen {lexicon : Lexicon ν} {inner group : Group}
    (holds : lexicon.Holds group) (nests : Relation.TransGen Group.Nests inner group) :
    lexicon.Holds inner := by
  induction nests using Relation.TransGen.head_induction_on with
  | single nests => exact holds.nests nests
  | head nests _ ih => exact ih.nests nests

/-- No group that a lexicon holds has its own id anywhere inside. -/
theorem Holds.id_ne_of_nests {entries : List (Entry ν)} {inner group : Group}
    (holds : (ofEntries entries).Holds group)
    (nests : Relation.TransGen Group.Nests inner group) : inner.id ≠ group.id := by
  intro same
  have unique := (ofEntries_identifies entries).unique
  obtain rfl := unique inner group (holds.of_transGen nests) holds same
  exact Group.nests_wellFounded.transGen.irrefl.irrefl inner nests

end Lexicon

end OpGrammar
