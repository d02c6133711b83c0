import OpGrammar.Proofs.History

/-!
# Every word is read

A pattern of characters and classes is found wherever one of its words stands. The edges of a graph
lead along each word, a walk takes an edge before any hop, and no later entry changes an edge.
-/

open scoped Computability

namespace OpGrammar

variable {ν : Type}

namespace Graph

/-! ## Following edges -/

/-- The node to which the edges lead along a text. -/
def follow? (graph : Graph Group ν) (id : Nat) : Text → Option Nat
  | [] => some id
  | c :: text => (graph[id]?.bind (·.edge? c)).bind (graph.follow? · text)

variable {graph graph' : Graph Group ν}

theorem follow?_cons (id : Nat) (c : Char) (text : Text) (last : Nat) :
    graph.follow? id (c :: text) = some last ↔
      ∃ node next, graph[id]? = some node ∧ node.edge? c = some next ∧
        graph.follow? next text = some last := by
  simp only [follow?, Option.bind_eq_some_iff]
  constructor
  · rintro ⟨next, ⟨node, present, edge⟩, more⟩
    exact ⟨node, next, present, edge, more⟩
  · rintro ⟨node, next, present, edge, more⟩
    exact ⟨next, ⟨node, present, edge⟩, more⟩

theorem follow?_append (id : Nat) (text more : Text) (last : Nat) :
    graph.follow? id (text ++ more) = some last ↔
      ∃ middle, graph.follow? id text = some middle ∧ graph.follow? middle more = some last := by
  induction text generalizing id with
  | nil => simp [follow?]
  | cons c text ih =>
    simp only [List.cons_append, follow?_cons, ih]
    constructor
    · rintro ⟨node, next, present, edge, middle, rest, more⟩
      exact ⟨middle, ⟨node, next, present, edge, rest⟩, more⟩
    · rintro ⟨middle, ⟨node, next, present, edge, rest⟩, more⟩
      exact ⟨node, next, present, edge, middle, rest, more⟩

theorem Extends.follow? (h : graph.Extends graph') (id last : Nat) (text : Text)
    (follows : graph.follow? id text = some last) : graph'.follow? id text = some last := by
  induction text generalizing id with
  | nil => exact follows
  | cons c text ih =>
    obtain ⟨node, next, present, edge, rest⟩ := (follow?_cons id c text last).1 follows
    obtain ⟨node', present', more⟩ := h id node present
    exact (follow?_cons id c text last).2
      ⟨node', next, present', more.edge? c next edge, ih next rest⟩

/-! ## Walking along edges -/

variable (run : Group → Text → Option (Found Unit))

theorem walk_isSome (entered : List Nat) (id : Nat) (text : Text) (node : Node Group ν)
    (present : graph[id]? = some node) (valued : node.value.isSome) :
    (graph.walk run entered id text).isSome := by
  have last (further : Option (Found ν)) : (further.or (node.value.map Found.here)).isSome := by
    rw [Option.isSome_or, Option.isSome_map, valued, Bool.or_true]
  cases edge : text.head?.bind node.edge? with
  | some next =>
    rw [walk_of_edge present edge]
    exact last _
  | none =>
    cases taken : graph.firstHop? run entered text node.hops with
    | some taken' =>
      rw [walk_of_hop present edge taken]
      exact last _
    | none =>
      rw [walk_of_stop present edge taken]
      exact last none

theorem walk_of_end (entered : List Nat) (id : Nat) (node : Node Group ν)
    (present : graph[id]? = some node) (hopless : node.hops = []) :
    graph.walk run entered id [] = node.value.map Found.here :=
  walk_of_stop present rfl (by rw [hopless]; rfl)

theorem walk_cons (entered : List Nat) (id next : Nat) (c : Char) (text : Text)
    (node : Node Group ν) (present : graph[id]? = some node) (edge : node.edge? c = some next) :
    graph.walk run entered id (c :: text) =
      ((graph.walk run [next] next text).map (.after 1 [])).or (node.value.map Found.here) :=
  walk_of_edge present edge

theorem walk_follow (entered : List Nat) (id last : Nat) (text rest : Text) (node : Node Group ν)
    (follows : graph.follow? id text = some last) (present : graph[last]? = some node)
    (valued : node.value.isSome) :
    ∃ found, graph.walk run entered id (text ++ rest) = some found ∧
      text.length ≤ found.length := by
  induction text generalizing id entered with
  | nil =>
    obtain rfl := Option.some.inj follows
    have walked := walk_isSome run entered id rest node present valued
    obtain ⟨found, walked⟩ := Option.isSome_iff_exists.1 walked
    exact ⟨found, walked, Nat.zero_le _⟩
  | cons c text ih =>
    obtain ⟨node', next, present', edge, more⟩ := (follow?_cons id c text last).1 follows
    obtain ⟨found, walked, long⟩ := ih [next] next more
    rw [List.cons_append, walk_cons run entered id next c (text ++ rest) node' present' edge, walked]
    refine ⟨found.after 1 [], rfl, ?_⟩
    simp only [Found.after, List.length_cons]
    omega

theorem walk_follow_value (entered : List Nat) (id last : Nat) (text : Text) (node : Node Group ν)
    (v : ν) (follows : graph.follow? id text = some last) (present : graph[last]? = some node)
    (hopless : node.hops = []) (known : node.value = some v) :
    ∃ found, graph.walk run entered id text = some found ∧ found.value = v := by
  induction text generalizing id entered with
  | nil =>
    obtain rfl := Option.some.inj follows
    rw [walk_of_end run entered id node present hopless, known]
    exact ⟨Found.here v, rfl, rfl⟩
  | cons c text ih =>
    obtain ⟨node', next, present', edge, more⟩ := (follow?_cons id c text last).1 follows
    obtain ⟨found, walked, value⟩ := ih [next] next more
    rw [walk_cons run entered id next c text node' present' edge, walked]
    exact ⟨found.after 1 [], rfl, value⟩

/-! ## The words of a pattern

Groups count as reading nothing here, so this says something of the words without groups of any
pattern. -/

end Graph

/-- The texts of one character that a link reads by itself. -/
def Link.charLanguage : Link → Language Char
  | .chars items => classLanguage items
  | .group _ _ => 0

namespace Graph

variable {graph graph' : Graph Group ν}

theorem follow?_of_has (link : Link) (id : Nat) (x u : Text) (node : Node Group ν)
    (follows : graph.follow? 0 x = some id) (present : graph[id]? = some node)
    (has : node.Has link) (reads : u ∈ link.charLanguage) :
    ∃ next, graph.Goes link id next ∧ graph.follow? 0 (x ++ u) = some next := by
  rcases link with items | ⟨group, label⟩
  · obtain ⟨c, rfl, item, mem, contains⟩ := reads
    obtain ⟨next, edge⟩ := Option.isSome_iff_exists.1 (has item mem c contains)
    have single : graph.follow? id [c] = some next :=
      (follow?_cons id c [] next).2 ⟨node, next, present, edge, rfl⟩
    refine ⟨next, ⟨node, present, ?_⟩, (follow?_append 0 x [c] next).2 ⟨id, follows, single⟩⟩
    exact (Node.mem_targets_chars items next).2 ⟨c, ⟨item, mem, contains⟩, edge⟩
  · exact (Language.notMem_zero u reads).elim

theorem Proper.follow?_lt (proper : graph.Proper) (id last : Nat) (text : Text)
    (follows : graph.follow? id text = some last) (inside : id < graph.size) :
    last < graph.size := by
  induction text generalizing id with
  | nil =>
    obtain rfl := Option.some.inj follows
    exact inside
  | cons c text ih =>
    obtain ⟨node, next, present, edge, more⟩ := (follow?_cons id c text last).1 follows
    exact ih next more (proper.edge id node c next present edge).2

theorem addBranch_follows (proper : graph.Proper) (frontier : List Nat) (pieces : List (Piece Link))
    (past : Language Char)
    (before : ∀ x ∈ past, ∃ id ∈ frontier, graph.follow? 0 x = some id) :
    ∀ x ∈ past * languageOfBranch Link.charLanguage pieces,
      ∃ id ∈ (graph.addBranch frontier pieces).2,
        (graph.addBranch frontier pieces).1.follow? 0 x = some id := by
  induction pieces generalizing graph frontier past with
  | nil =>
    intro x mem
    exact before x (by simpa [languageOfBranch] using mem)
  | cons piece pieces ih =>
    intro x mem
    obtain ⟨graph', reached, eq, swept⟩ := addPiece_spec proper frontier piece
    have after := swept.covers (fun id x => graph'.follow? 0 x = some id)
      (l := piece.atom.charLanguage)
      (fun x mem => by
        obtain ⟨id, start, follows⟩ := before x mem
        exact ⟨id, start, swept.keeps.follow? 0 id x follows⟩)
      (fun id source x follows u reads => by
        have inside := swept.proper.follow?_lt 0 id x follows swept.proper.nonempty
        have present := Array.getElem?_eq_getElem inside
        exact follow?_of_has piece.atom id x u _ follows present (swept.has id source _ present)
          reads)
    unfold addBranch
    rw [eq]
    refine ih swept.proper _ _ after x ?_
    rw [mul_assoc]
    exact mem

theorem addBranches_follows (proper : graph.Proper) (branches : Branches Link) :
    ∀ x ∈ branches.language Link.charLanguage, ∃ id ∈ (graph.addBranches [0] branches).2,
      (graph.addBranches [0] branches).1.follow? 0 x = some id := by
  induction branches generalizing graph with
  | nil => exact fun x mem => (Language.notMem_zero x mem).elim
  | cons branch branches ih =>
    rintro x (mem | mem)
    · obtain ⟨id, among, follows⟩ := addBranch_follows proper [0] branch 1
        (fun x none => ⟨0, List.mem_singleton_self 0, by rw [(Language.mem_one x).1 none]; rfl⟩) x
        (by rwa [one_mul])
      have later := addBranches_grows (addBranch_grows proper [0] branch).2 [0] branches
      exact ⟨id, mem_joinNodes.2 (Or.inl among), later.1.follow? 0 id x follows⟩
    · obtain ⟨id, among, follows⟩ := ih (addBranch_grows proper [0] branch).2 x mem
      exact ⟨id, mem_joinNodes.2 (Or.inr among), follows⟩

theorem addPattern_follows (proper : graph.Proper) (branches : Branches Link) (v : ν) (w : Text)
    (mem : w ∈ branches.language Link.charLanguage) :
    ∃ id node, (graph.addPattern branches v).follow? 0 w = some id ∧
      (graph.addPattern branches v)[id]? = some node ∧ node.value.isSome := by
  obtain ⟨id, among, follows⟩ := addBranches_follows proper branches w mem
  have follows' := (extends_addValue (graph.addBranches [0] branches).2 v).follow? 0 id w follows
  have grown := (addPattern_grows proper branches v).2
  have inside := grown.follow?_lt 0 id w follows' grown.nonempty
  have present := Array.getElem?_eq_getElem inside
  exact ⟨id, _, follows', present, addPattern_ends branches v id among _ present⟩

end Graph

/-! ## The links of a plain pattern -/

section Plain

variable (meanings : Meanings) (groups : InlineGroups) (names : Text → Language Char)

theorem Atom.link_of_plain (atom : Atom) (plain : atom.plain) :
    ∃ items, atom.link meanings groups = .ok (.chars items) groups ∧
      classLanguage items = atom.language names := by
  cases atom with
  | char c =>
    refine ⟨[.single c], by simp only [Atom.link]; rfl, ?_⟩
    rw [Atom.language, classLanguage_single]
  | oneOf items => exact ⟨items, by simp only [Atom.link]; rfl, by simp only [Atom.language]⟩
  | group | reference => cases plain

theorem linksOfBranch_of_plain (pieces : List (Piece Atom))
    (plain : ∀ piece ∈ pieces, piece.atom.plain) :
    ∃ links, linksOfBranch meanings pieces groups = .ok links groups ∧
      (∀ link ∈ links, ∃ items, link.atom = .chars items) ∧
      languageOfBranch Link.charLanguage links = languageOfBranch (Atom.language names) pieces := by
  induction pieces with
  | nil => exact ⟨[], by rw [linksOfBranch]; rfl, by simp, rfl⟩
  | cons piece pieces ih =>
    obtain ⟨atom, quantifier⟩ := piece
    obtain ⟨items, linked, same⟩ := Atom.link_of_plain meanings groups names atom
      (plain _ List.mem_cons_self)
    obtain ⟨links, linked', chars, same'⟩ := ih fun piece mem => plain piece (.tail _ mem)
    refine ⟨⟨.chars items, quantifier⟩ :: links, ?_, ?_, ?_⟩
    · rw [linksOfBranch, bind_apply, linked]
      dsimp only
      rw [bind_apply, linked']
      rfl
    · rintro link (_ | ⟨_, mem⟩)
      · exact ⟨items, rfl⟩
      · exact chars link mem
    · simp only [languageOfBranch, Link.charLanguage, same, same']

theorem links_of_plain (pattern : Pattern) (plain : pattern.plain) :
    ∃ branches, pattern.links meanings groups = .ok branches groups ∧
      (∀ branch ∈ branches, ∀ link ∈ branch, ∃ items, link.atom = .chars items) ∧
      branches.language Link.charLanguage = pattern.language names := by
  unfold Pattern.links Pattern.language
  induction pattern with
  | nil => exact ⟨[], by rw [linksOfBranches]; rfl, by simp, rfl⟩
  | cons branch pattern ih =>
    simp only [Pattern.plain, List.all_cons, Bool.and_eq_true, List.all_eq_true] at plain ih
    obtain ⟨links, linked, chars, same⟩ := linksOfBranch_of_plain meanings groups names branch plain.1
    obtain ⟨branches, linked', chars', same'⟩ := ih plain.2
    refine ⟨links :: branches, ?_, ?_, ?_⟩
    · rw [linksOfBranches, bind_apply, linked]
      dsimp only
      rw [bind_apply, linked']
      rfl
    · rintro branch (_ | ⟨_, mem⟩)
      · exact chars
      · exact chars' branch mem
    · simp only [Branches.language, same, same']

end Plain

theorem plain_of_links {meanings : Meanings} {groups groups' : InlineGroups}
    (names : Text → Language Char) {pattern : Pattern} (plain : pattern.plain)
    {branches : Branches Link} (links : pattern.links meanings groups = .ok branches groups') :
    (∀ branch ∈ branches, ∀ link ∈ branch, ∃ items, link.atom = .chars items) ∧
      branches.language Link.charLanguage = pattern.language names := by
  obtain ⟨branches', links', chars, same⟩ := links_of_plain meanings groups names pattern plain
  cases links.symm.trans links'
  exact ⟨chars, same⟩

namespace Lexicon

/-! ## Lexicons -/

def AllPlain (entries : List (Entry ν)) : Prop :=
  ∀ text value pattern, Registers entries text value → Pattern.read text = .ok pattern →
    pattern.plain

theorem hopless_of_allPlain (entries : List (Entry ν)) (plain : AllPlain entries) (id : Nat)
    (node : Node Group ν) (present : (ofEntries entries).graph[id]? = some node) :
    node.hops = [] := by
  induction entries using List.reverseRecOn generalizing id node with
  | nil =>
    obtain ⟨inside, rfl⟩ := Array.getElem?_eq_some_iff.1 present
    simp [ofEntries, empty, Graph.empty, Node.blank]
  | append_singleton entries entry ih =>
    have earlier := ih fun text value pattern registers read =>
      plain text value pattern (registers.concat entry) read
    rw [ofEntries_concat] at present
    rcases extend_graph (ofEntries entries) entry with
      same | ⟨text, value, pattern, branches, groups, rfl, accepts, read, links, eq⟩
    · rw [same] at present
      exact earlier id node present
    · rw [eq] at present
      have now := plain text value pattern ⟨entries, took_concat _ accepts⟩ read
      obtain ⟨chars, -⟩ := plain_of_links (fun _ => 0) now links
      refine List.eq_nil_iff_forall_not_mem.2 fun hop mem => ?_
      rcases Graph.addPattern_hop (ofEntries_proper entries) branches value id node hop present
        mem with ⟨node', before, old⟩ | ⟨branch, among, link, among', group⟩
      · rw [earlier id node' before] at old
        cases old
      · obtain ⟨items, char⟩ := chars branch among link among'
        cases char.symm.trans group

theorem follows_of_accepts (before : List (Entry ν)) (text : Text) (value : ν) (pattern : Pattern)
    (names : Text → Language Char) (accepts : (ofEntries before).Accepts (.pattern text value))
    (read : Pattern.read text = .ok pattern) (plain : pattern.plain) (w : Text)
    (mem : w ∈ pattern.language names) :
    ∃ id node, (ofEntries (before ++ [.pattern text value])).graph.follow? 0 w = some id ∧
      (ofEntries (before ++ [.pattern text value])).graph[id]? = some node ∧
      node.value.isSome := by
  obtain ⟨pattern', branches, groups, read', -, links, eq⟩ :=
    extend_of_accepts (ofEntries before) text value accepts
  obtain rfl : pattern = pattern' := Except.ok.inj (read.symm.trans read')
  obtain ⟨-, same⟩ := plain_of_links names plain links
  rw [ofEntries_concat, eq]
  exact Graph.addPattern_follows (ofEntries_proper before) branches value w (same ▸ mem)

theorem value_of_concat (before : List (Entry ν)) (text : Text) (value : ν) (id : Nat)
    (node : Node Group ν) (v : ν)
    (present : (ofEntries (before ++ [.pattern text value])).graph[id]? = some node)
    (known : node.value = some v) : v = value ∨ ∃ earlier, Registers before earlier v := by
  rw [ofEntries_concat] at present
  rcases extend_graph (ofEntries before) (.pattern text value) with
    same | ⟨text', value', pattern, branches, groups, eq, -, -, -, eq'⟩
  · rw [same] at present
    exact Or.inr (registers_of_value before id node v present known)
  · obtain ⟨rfl, rfl⟩ := Entry.pattern.inj eq
    rw [eq'] at present
    rcases Graph.addPattern_value (ofEntries_proper before) branches value id node v present known
      with ⟨node', old, known'⟩ | ⟨rfl, -⟩
    · exact Or.inr (registers_of_value before id node' v old known')
    · exact Or.inl rfl

theorem longest?_of_walk (lexicon : Lexicon ν) (input : Text) (found : Found ν)
    (walked : lexicon.graph.walk Group.run [0] 0 input = some found) :
    lexicon.longest? input = some (found.toMatch input) := by
  rw [longest?, walked]
  rfl

theorem longest?_of_follow (lexicon : Lexicon ν) (w : Text) (id : Nat) (node : Node Group ν) (v : ν)
    (follows : lexicon.graph.follow? 0 w = some id) (present : lexicon.graph[id]? = some node)
    (hopless : node.hops = []) (known : node.value = some v) :
    ∃ m, lexicon.longest? w = some m ∧ m.text = w ∧ m.value = v := by
  obtain ⟨found, walked, value⟩ := Graph.walk_follow_value Group.run [0] 0 id w node v
    follows present hopless known
  obtain ⟨found', walked', long⟩ := Graph.walk_follow Group.run [0] 0 id w [] node follows
    present (by rw [known]; rfl)
  rw [List.append_nil, walked] at walked'
  cases walked'
  exact ⟨_, longest?_of_walk lexicon w found walked, List.take_of_length_le long, value⟩

/-- A plain pattern that was taken at any time is complete: an input that starts with one of its
words gives a match of at least that word. By itself the word gives all of it, and, where all
patterns are plain, the value of this pattern or of one that was taken before. -/
theorem plain_pattern_complete (before after : List (Entry ν)) (text : Text) (value : ν)
    (pattern : Pattern) (names : Text → Language Char)
    (accepts : (ofEntries before).Accepts (.pattern text value))
    (read : Pattern.read text = .ok pattern) (plain : pattern.plain) (w : Text)
    (mem : w ∈ pattern.language names) :
    (∀ rest, ∃ m, (ofEntries (before ++ .pattern text value :: after)).longest? (w ++ rest) = some m ∧
      w <+: m.text) ∧
    ∃ m, (ofEntries (before ++ .pattern text value :: after)).longest? w = some m ∧ m.text = w ∧
      (AllPlain (before ++ .pattern text value :: after) →
        m.value = value ∨ ∃ earlier, Registers before earlier m.value) := by
  have split : before ++ .pattern text value :: after =
      (before ++ [.pattern text value]) ++ after := by simp
  rw [split]
  generalize entries : before ++ [.pattern text value] = first
  obtain ⟨id, node, follows, present, valued⟩ := entries ▸
    follows_of_accepts before text value pattern names accepts read plain w mem
  have grown := ofEntries_extends first after
  have follows' := grown.follow? 0 id w follows
  obtain ⟨node', present', more⟩ := grown id node present
  obtain ⟨v, known⟩ := Option.isSome_iff_exists.1 valued
  have known' := more.value v known
  have valued' : node'.value.isSome := by rw [known']; rfl
  have walks (rest : Text) : ∃ found : Found ν, (ofEntries (first ++ after)).longest? (w ++ rest) =
      some (found.toMatch (w ++ rest)) ∧ w.length ≤ found.length := by
    obtain ⟨found, walked, long⟩ :=
      Graph.walk_follow Group.run [0] 0 id w rest node' follows' present' valued'
    exact ⟨found, longest?_of_walk _ _ found walked, long⟩
  refine ⟨fun rest => ?_, ?_⟩
  · obtain ⟨found, matched, long⟩ := walks rest
    exact ⟨_, matched, List.prefix_take_iff.2 ⟨List.prefix_append w rest, long⟩⟩
  · obtain ⟨found, matched, long⟩ := walks []
    rw [List.append_nil] at matched
    refine ⟨_, matched, List.take_of_length_le long, fun allPlain => ?_⟩
    obtain ⟨m, matched', -, value'⟩ := longest?_of_follow (ofEntries (first ++ after)) w id node' v
      follows' present' (hopless_of_allPlain _ allPlain id node' present') known'
    rw [matched] at matched'
    cases matched'
    rw [← entries] at present
    rw [value']
    exact value_of_concat before text value id node v present known

theorem plain_pattern_complete_letters :
    (∀ rest, ∃ m, (ofEntries ([.pattern ['a'] 1] ++ .pattern "a[bc]*".toList 2 ::
      [.pattern "ac(d?)".toList 3])).longest? (['a', 'c', 'b'] ++ rest) = some m ∧
        ['a', 'c', 'b'] <+: m.text) ∧
    ∃ m, (ofEntries ([.pattern ['a'] 1] ++ .pattern "a[bc]*".toList 2 ::
      [.pattern "ac(d?)".toList 3])).longest? ['a', 'c', 'b'] = some m ∧ m.text = ['a', 'c', 'b'] ∧
      (AllPlain ([.pattern ['a'] 1] ++ .pattern "a[bc]*".toList 2 ::
        [.pattern "ac(d?)".toList 3]) →
        m.value = 2 ∨ ∃ earlier, Registers [.pattern ['a'] 1] earlier m.value) := by
  refine plain_pattern_complete [.pattern ['a'] 1] [.pattern "ac(d?)".toList 3] "a[bc]*".toList 2
    [[⟨.char 'a', .once⟩, ⟨.oneOf [.single 'b', .single 'c'], .anyNumber⟩]] (fun _ => 0)
    (by decide +kernel) (by cbv) (by decide) ['a', 'c', 'b'] ?_
  have letter (c : Char) (h : c = 'b' ∨ c = 'c') :
      [c] ∈ classLanguage [.single 'b', .single 'c'] := by
    rcases h with rfl | rfl
    · exact ⟨_, rfl, .single 'b', by decide, by decide⟩
    · exact ⟨_, rfl, .single 'c', by decide, by decide⟩
  have more : ['c', 'b'] ∈ (classLanguage [.single 'b', .single 'c'])∗ :=
    Language.join_mem_kstar (L := [['c'], ['b']])
      (by simp [letter])
  have end' : ['c', 'b'] ++ [] ∈ (classLanguage [.single 'b', .single 'c'])∗ * 1 :=
    Language.append_mem_mul more Language.nil_mem_one
  exact Or.inl (Language.append_mem_mul (a := ['a']) rfl end')

end Lexicon

end OpGrammar
