import OpGrammar.Proofs.LaterPatterns
import OpGrammar.Proofs.Soundness

/-!
# First come, first served

A node keeps the value of the first pattern that ends there, and a match has the value of the last
node that its walk comes to. So what counts is where patterns end, not what they describe: two
patterns that describe the same text may end at different nodes.
-/

open StateTransition

namespace OpGrammar

variable {ν : Type}

namespace Graph

variable {graph : Graph Group ν}

/-! ## The nodes at which a pattern ends -/

theorem addBranch_inside (proper : graph.Proper) (frontier : List Nat) (pieces : List (Piece Link))
    (inside : ∀ id ∈ frontier, id < graph.size) :
    ∀ id ∈ (graph.addBranch frontier pieces).2, id < (graph.addBranch frontier pieces).1.size := by
  induction pieces generalizing graph frontier with
  | nil => exact inside
  | cons piece pieces ih =>
    obtain ⟨graph', reached, eq, swept⟩ := addPiece_spec proper frontier piece
    unfold addBranch
    rw [eq]
    refine ih swept.proper _ fun id after => ?_
    rcases (mem_after _ _ _ _).1 after with among | ⟨-, start⟩
    · obtain ⟨before, goes⟩ := swept.goes_to id among
      exact (swept.proper.goes piece.atom before id goes).2
    · exact Nat.lt_of_lt_of_le (inside id start) swept.keeps.size_le

theorem addBranches_inside (proper : graph.Proper) (branches : Branches Link) :
    ∀ id ∈ (graph.addBranches [0] branches).2, id < (graph.addBranches [0] branches).1.size := by
  induction branches generalizing graph with
  | nil => exact fun id none => absurd none List.not_mem_nil
  | cons branch branches ih =>
    have first := addBranch_inside proper [0] branch fun id start =>
      List.mem_singleton.1 start ▸ proper.nonempty
    have proper' := (addBranch_grows proper [0] branch).2
    intro id mem
    rcases mem_joinNodes.1 mem with mem | mem
    · exact Nat.lt_of_lt_of_le (first id mem) (addBranches_grows proper' [0] branches).1.size_le
    · exact ih proper' id mem

theorem addPattern_ends_valued (proper : graph.Proper) (branches : Branches Link) (v : ν) (id : Nat)
    (mem : id ∈ (graph.addBranches [0] branches).2) :
    ∃ node, (graph.addPattern branches v)[id]? = some node ∧ node.value.isSome := by
  have inside : id < (graph.addPattern branches v).size := by
    rw [addPattern, size_addValue]
    exact addBranches_inside proper branches id mem
  have present := Array.getElem?_eq_getElem inside
  exact ⟨_, present, addPattern_ends branches v id mem _ present⟩

theorem reaches_of_follow? (run : Group → Text → Option (Found Unit)) (entered : List Nat)
    (id last : Nat) (text rest : Text) (follows : graph.follow? id text = some last) :
    ∃ entered', Reaches (graph.next? run) ⟨entered, id, text ++ rest⟩ ⟨entered', last, rest⟩ := by
  induction text generalizing id entered with
  | nil =>
    obtain rfl := Option.some.inj follows
    exact ⟨entered, .refl⟩
  | cons c text ih =>
    obtain ⟨node, next, present, edge, more⟩ := (follow?_cons id c text last).1 follows
    obtain ⟨entered', comes⟩ := ih [next] next more
    have leads : graph.edgeAt? ⟨entered, id, c :: text ++ rest⟩ = some next := by
      rw [edgeAt?, present]
      exact edge
    exact ⟨entered', .head (next?_of_edge leads) comes⟩

end Graph

namespace Lexicon

/-- The nodes at which a pattern ends that is inserted now. -/
def endsOf (lexicon : Lexicon ν) (text : Text) : List Nat :=
  match Pattern.read text with
  | .error _ => []
  | .ok pattern =>
    match pattern.links lexicon.meanings lexicon.inlineGroups with
    | .ok branches _ => (lexicon.graph.addBranches [0] branches).2
    | .error _ _ => []

theorem endsOf_eq {lexicon : Lexicon ν} {text : Text} {pattern : Pattern} {branches : Branches Link}
    {groups : InlineGroups} (read : Pattern.read text = .ok pattern)
    (links : pattern.links lexicon.meanings lexicon.inlineGroups = .ok branches groups) :
    lexicon.endsOf text = (lexicon.graph.addBranches [0] branches).2 := by
  simp only [endsOf, read, links]

/-- The pattern was taken after the entries before it, and ends at the node. -/
structure Ends (entries before : List (Entry ν)) (text : Text) (value : ν) (id : Nat) : Prop where
  took : Took entries before (.pattern text value)
  mem : id ∈ (ofEntries before).endsOf text

variable {entries before : List (Entry ν)} {text : Text} {value : ν} {id : Nat}

theorem Ends.concat (ends : Ends entries before text value id) (later : Entry ν) :
    Ends (entries ++ [later]) before text value id :=
  ⟨ends.took.concat later, ends.mem⟩

/-! ## First at a node -/

theorem Took.grown (took : Took entries before (.pattern text value)) :
    ∃ pattern branches groups, Pattern.read text = .ok pattern ∧
      pattern.links (ofEntries before).meanings (ofEntries before).inlineGroups =
        .ok branches groups ∧
      ((ofEntries before).graph.addPattern branches value).Extends (ofEntries entries).graph := by
  obtain ⟨after, rfl, accepts⟩ := took
  obtain ⟨pattern, branches, groups, read, -, links, eq⟩ := extend_of_accepts _ text value accepts
  have grown := ofEntries_extends (before ++ [.pattern text value]) after
  rw [ofEntries_concat, eq, List.append_assoc, List.singleton_append] at grown
  exact ⟨pattern, branches, groups, read, links, grown⟩

theorem Took.valued (took : Took entries before (.pattern text value))
    (mem : id ∈ (ofEntries before).endsOf text) :
    ∃ node, (ofEntries entries).graph[id]? = some node ∧ node.value.isSome := by
  obtain ⟨pattern, branches, groups, read, links, grown⟩ := took.grown
  rw [endsOf_eq read links] at mem
  obtain ⟨node, present, some⟩ :=
    Graph.addPattern_ends_valued (ofEntries_proper before) branches value id mem
  obtain ⟨v, known⟩ := Option.isSome_iff_exists.1 some
  obtain ⟨node', present', more⟩ := grown id node present
  exact ⟨node', present', by rw [more.value v known]; rfl⟩

/-- A value at a node is that of the first pattern that ends there. -/
theorem first_of_value (node : Node Group ν) (v : ν)
    (present : (ofEntries entries).graph[id]? = some node) (known : node.value = some v) :
    ∃ before text, Ends entries before text v id ∧
      ∀ before' text' value', Ends entries before' text' value' id → before <+: before' := by
  induction entries using List.reverseRecOn generalizing node with
  | nil =>
    obtain ⟨inside, rfl⟩ := Array.getElem?_eq_some_iff.1 present
    simp [ofEntries, empty, Graph.empty, Node.blank] at known
  | append_singleton entries entry ih =>
    -- If the node has the value already, the first pattern is among the earlier entries.
    have stays (old : Node Group ν) (present : (ofEntries entries).graph[id]? = some old)
        (known : old.value = some v) : ∃ before text, Ends (entries ++ [entry]) before text v id ∧
          ∀ before' text' value', Ends (entries ++ [entry]) before' text' value' id →
            before <+: before' := by
      obtain ⟨before, text, ends, first⟩ := ih old present known
      refine ⟨before, text, ends.concat entry, fun before' text' value' ends' => ?_⟩
      rcases took_concat_iff.1 ends'.took with took | ⟨rfl, -, -⟩
      · exact first before' text' value' ⟨took, ends'.mem⟩
      · obtain ⟨after, rfl, -⟩ := ends.took
        exact List.prefix_append _ _
    rw [ofEntries_concat] at present
    rcases extend_graph (ofEntries entries) entry with
      same | ⟨text, value, pattern, branches, groups, rfl, accepts, read, links, eq⟩
    · rw [same] at present
      exact stays node present known
    rw [eq] at present
    rcases Graph.addPattern_value (ofEntries_proper entries) branches value id node v present known
      with ⟨old, before, known⟩ | ⟨rfl, mem⟩
    · exact stays old before known
    by_cases valued : ∃ old, (ofEntries entries).graph[id]? = some old ∧ old.value.isSome
    · obtain ⟨old, before, some⟩ := valued
      obtain ⟨w, known'⟩ := Option.isSome_iff_exists.1 some
      obtain ⟨node', present', more⟩ :=
        (Graph.addPattern_grows (ofEntries_proper entries) branches v).1 id old before
      obtain rfl : node = node' := Option.some.inj (present.symm.trans present')
      exact stays old before (known'.trans ((more.value w known').symm.trans known))
    · refine ⟨entries, text, ⟨took_concat _ accepts, by rwa [endsOf_eq read links]⟩,
        fun before' text' value' ends' => ?_⟩
      rcases took_concat_iff.1 ends'.took with took | ⟨rfl, -, -⟩
      · exact absurd (took.valued ends'.mem) valued
      · exact List.prefix_rfl

theorem value_of_ends (node : Node Group ν) (v : ν)
    (present : (ofEntries entries).graph[id]? = some node) (known : node.value = some v)
    (ends : Ends entries before text value id) :
    v = value ∨ ∃ earlier, Registers before earlier v := by
  obtain ⟨first, text', ends', least⟩ := first_of_value node v present known
  obtain ⟨rest, rfl⟩ := least before text value ends
  obtain ⟨after, eq, accepts⟩ := ends'.took
  obtain ⟨after', eq', -⟩ := ends.took
  rw [eq, List.append_assoc] at eq'
  have eq' := List.append_cancel_left eq'
  cases rest with
  | nil =>
    cases eq'
    exact .inl rfl
  | cons entry rest =>
    obtain ⟨rfl, -⟩ := List.cons.inj eq'
    exact .inr ⟨text', first, rest, rfl, accepts⟩

/-! ## Plain patterns -/

theorem Took.follow? (took : Took entries before (.pattern text value)) {pattern : Pattern}
    (names : Text → Language Char) (read : Pattern.read text = .ok pattern)
    (plain : pattern.plain) {w : Text} (mem : w ∈ pattern.language names) :
    ∃ id ∈ (ofEntries before).endsOf text, (ofEntries entries).graph.follow? 0 w = some id := by
  obtain ⟨pattern', branches, groups, read', links, grown⟩ := took.grown
  obtain rfl : pattern = pattern' := Except.ok.inj (read.symm.trans read')
  obtain ⟨-, same⟩ := plain_of_links names plain links
  obtain ⟨id, among, follows⟩ :=
    Graph.addBranches_follows (ofEntries_proper before) branches w (same ▸ mem)
  refine ⟨id, by rwa [endsOf_eq read links], grown.follow? 0 id w ?_⟩
  exact (Graph.extends_addValue _ value).follow? 0 id w follows

theorem Took.last (took : Took entries before (.pattern text value)) {pattern : Pattern}
    (names : Text → Language Char) (read : Pattern.read text = .ok pattern)
    (plain : pattern.plain) {w : Text} (mem : w ∈ pattern.language names)
    (stops : ∀ place, Reaches ((ofEntries entries).graph.next? Group.run) (.start w) place →
      place.rest = [] → (ofEntries entries).graph.next? Group.run place = none) :
    ∃ last, (ofEntries entries).graph.Last Group.run (.start w) last ∧ last.rest = [] ∧
      Ends entries before text value last.id := by
  obtain ⟨id, among, follows⟩ := took.follow? names read plain mem
  obtain ⟨entered, comes⟩ := Graph.reaches_of_follow? Group.run [0] 0 id w [] follows
  rw [List.append_nil] at comes
  obtain ⟨node, present, some⟩ := took.valued among
  refine ⟨⟨entered, id, []⟩, Graph.last_of_stop comes ?_ (stops _ comes rfl), rfl, took, among⟩
  rw [Graph.valueAt?, present]
  exact some

/-- A match has the value of the first pattern that ends at the last node with a value that its walk
comes to. So if a pattern ends there, the value is not one that only later patterns have. A plain
pattern ends there if it describes the text and the walk takes no group after all of it. -/
theorem first_come_first_served (entries : List (Entry ν)) (input : Text) (m : Match ν)
    (h : (ofEntries entries).longest? input = some m) :
    ∃ last, (ofEntries entries).graph.Last Group.run (.start input) last ∧
      m.text ++ last.rest = input ∧
      (∃ before text, Ends entries before text m.value last.id ∧
        ∀ before' text' value', Ends entries before' text' value' last.id → before <+: before') ∧
      (∀ before text value other, Ends entries before text value last.id → other ≠ value →
        (∀ earlier, ¬Registers before earlier other) → m.value ≠ other) ∧
      ∀ before text value pattern names, Took entries before (.pattern text value) →
        Pattern.read text = .ok pattern → pattern.plain → input ∈ pattern.language names →
        (∀ place, Reaches ((ofEntries entries).graph.next? Group.run) (.start input) place →
          place.rest = [] → (ofEntries entries).graph.next? Group.run place = none) →
        m.text = input ∧ Ends entries before text value last.id := by
  obtain ⟨last, ends, known, split⟩ := longest?_last h
  obtain ⟨node, present, known'⟩ := Option.bind_eq_some_iff.1 known
  refine ⟨last, ends, split, first_of_value node m.value present known', ?_, ?_⟩
  · rintro before text value _ there differs later rfl
    rcases value_of_ends node m.value present known' there with same | ⟨earlier, registers⟩
    · exact differs same
    · exact later earlier registers
  · intro before text value pattern names took read plain mem stops
    obtain ⟨last', ends', rest, there⟩ := took.last names read plain mem stops
    obtain rfl := ends.unique ends'
    rw [rest, List.append_nil] at split
    exact ⟨split, there⟩

/-- A group that reads nothing leads on from where the plain pattern ends. -/
example : (ofEntries [.pattern ['a'] 1, .pattern "a(b?)".toList 2]).longest? ['a'] =
    some ⟨['a'], 2, []⟩ := by
  decide +kernel

/-- The class does not come first, and the group ends at a node that the walk does not come to. -/
theorem first_come_first_served_letter :
    let entries : List (Entry Nat) :=
      [.pattern ['a'] 1, .pattern "(a)".toList 2, .pattern "[ab]".toList 3]
    (ofEntries entries).longest? ['a'] = some ⟨['a'], 1, []⟩ ∧
      ∃ last, (ofEntries entries).graph.Last Group.run (.start ['a']) last ∧
        Ends entries [] ['a'] 1 last.id ∧
        ∀ before text value, Ends entries before text value last.id → value ≠ 1 →
          before ≠ [] := by
  intro entries
  have found : (ofEntries entries).longest? ['a'] = some ⟨['a'], 1, []⟩ := by decide +kernel
  have read : Pattern.read ['a'] = .ok [[⟨.char 'a', .once⟩]] := by cbv
  have first : (ofEntries entries).graph.next? Group.run (.start ['a']) = some ⟨[1], 1, []⟩ := by
    decide +kernel
  have stop : (ofEntries entries).graph.next? Group.run ⟨[1], 1, []⟩ = none := by decide +kernel
  obtain ⟨last, ends, -, ⟨before, text, there, least⟩, -, plain⟩ :=
    first_come_first_served entries ['a'] ⟨['a'], 1, []⟩ found
  have took : Took entries [] (.pattern ['a'] 1) := ⟨_, rfl, by decide +kernel⟩
  obtain ⟨-, ends'⟩ := plain [] ['a'] 1 _ (fun _ => 0) took read (by decide)
    (.inl ⟨['a'], rfl, [], rfl, rfl⟩) fun place comes ended => by
      rcases Relation.ReflTransGen.cases_head comes with rfl | ⟨place', step, comes'⟩
      · cases ended
      obtain rfl : ⟨[1], 1, []⟩ = place' := Option.some.inj (first.symm.trans step)
      rcases Relation.ReflTransGen.cases_head comes' with rfl | ⟨_, step', -⟩
      · exact stop
      · cases stop.symm.trans step'
  refine ⟨found, last, ends, ends', ?_⟩
  rintro _ text' value there' differs rfl
  obtain ⟨after, eq, -⟩ := there'.took
  cases (List.cons.inj eq).1
  exact differs rfl

/-- A group and a character that describe the same text end at different nodes, and the walk takes
the character. -/
theorem first_come_not_served :
    ¬∀ (entries before before' : List (Entry Nat)) (text text' : Text) (value value' : Nat)
      (pattern pattern' : Pattern) (t : Text) (m : Match Nat),
      Took entries before (.pattern text value) → Took entries before' (.pattern text' value') →
      before.length < before'.length →
      Pattern.read text = .ok pattern → Pattern.read text' = .ok pattern' →
      t ∈ pattern.language (namesOf before) → t ∈ pattern'.language (namesOf before') →
      value ≠ value' → (ofEntries entries).longest? t = some m → ¬(m.text = t ∧ m.value = value') := by
  intro all
  have group : Pattern.read "(a)".toList =
      .ok [[⟨.group ['a'] [[⟨.char 'a', .once⟩]], .once⟩]] := by cbv
  have letter : Pattern.read ['a'] = .ok [[⟨.char 'a', .once⟩]] := by cbv
  have inside (names : Text → Language Char) :
      ['a'] ∈ Pattern.language names [[⟨.char 'a', .once⟩]] := .inl ⟨['a'], rfl, [], rfl, rfl⟩
  exact all [.pattern "(a)".toList 1, .pattern ['a'] 2] [] [.pattern "(a)".toList 1]
    "(a)".toList ['a'] 1 2 _ _ ['a'] ⟨['a'], 2, []⟩ ⟨_, rfl, by decide +kernel⟩
    ⟨[], rfl, by decide +kernel⟩ (by decide) group letter
    (.inl ⟨['a'], (Atom.language_group ..).symm ▸ inside _, [], rfl, rfl⟩) (inside _) (by decide)
    (by decide +kernel) ⟨rfl, rfl⟩

end Lexicon

end OpGrammar
