import OpGrammar.Proofs.KeptGroups
import OpGrammar.Proofs.Mirrors
import OpGrammar.Proofs.Respelling
import OpGrammar.Proofs.TwoMeanings

/-!
# A group and its name

A name that means a pattern may stand for the pattern in parentheses. The two lexicons have other
groups, made in other ways, but where one of them finds a group again so does the other one: two
groups with different texts have different texts with the name in them.
-/

namespace OpGrammar

variable {ν : Type}

/-! ## Groups on both sides -/

/-- How the ids of groups change when the name stands for the group. -/
inductive Renamed (name source : Text) (generation : Nat) : GroupId → GroupId → Prop
  | here : Renamed name source generation (.inline source generation) (.named name generation)
  | group (text : Text) (pattern : Pattern) (read : Pattern.read text = .ok pattern)
    (unused : name ∉ pattern.names) (other : text ≠ source) :
    Renamed name source generation (.inline text generation)
      (.inline (nameGroups name source text) generation)
  | name (other : Text) (unused : name ≠ other) (generation' : Nat) :
    Renamed name source generation (.named other generation') (.named other generation')

theorem pairs_renamed {name source : Text} (proper : isName name) (generation : Nat) :
    Pairs (Group.Twin (Renamed name source generation)) := by
  refine pairs_twin fun id id' other other' renamed renamed' => ?_
  cases renamed with
  | here =>
    cases renamed' with
    | here => simp
    | group text pattern read unused away => simp [Ne.symm away]
    | name other unused => simp [unused]
  | group text pattern read unused away =>
    cases renamed' with
    | here => simp [away]
    | group text' pattern' read' unused' away' =>
      simp only [GroupId.inline.injEq, and_true]
      exact ⟨fun same => by rw [same], nameGroups_injective proper read read' unused unused'⟩
    | name => simp
  | name other unused =>
    cases renamed' with
    | here => simp [Ne.symm unused]
    | group => simp
    | name => simp

/-- The second meanings are the first ones, and the name means what the text is read as. -/
structure Learns (name source : Text) (meanings meanings' : Meanings) : Prop where
  proper : isName name
  tidy : meanings.Tidy
  generation : meanings'.generation = meanings.generation
  others : ∀ other, name ≠ other → meanings'.group? other = meanings.group? other
  group : ∃ inner branches, Pattern.read source = .ok inner ∧
    inner.nullable meanings.nullable = false ∧ freshBranches meanings inner = some branches ∧
    meanings'.group? name = some (.ofBranches (.named name meanings.generation) branches)

/-! ## Patterns on both sides -/

section Patterns

variable {name source : Text} {meanings meanings' : Meanings}

theorem Learns.nullable_others (learns : Learns name source meanings meanings') {other : Text}
    (unused : name ≠ other) : meanings'.nullable other = meanings.nullable other := by
  rw [Meanings.nullable, Meanings.nullable, learns.others other unused]

theorem Learns.nullable_name (learns : Learns name source meanings meanings') :
    meanings'.nullable name = false := by
  obtain ⟨inner, branches, -, solid, made, known⟩ := learns.group
  rw [Meanings.nullable, known, Option.any_some, Group.nullable_ofBranches,
    skippable_of_freshBranches made]
  refine Bool.eq_false_iff.2 fun skippable => ?_
  rw [Pattern.nullable_of_skippable skippable] at solid
  cases solid

theorem nullableBranch_named (known known' : Text → Bool) (pieces : List (Piece Atom))
    (atoms : ∀ piece ∈ pieces,
      (piece.atom.named name source).nullable known' = piece.atom.nullable known) :
    nullableBranch known' (namedBranch name source pieces) = nullableBranch known pieces := by
  induction pieces with
  | nil => rfl
  | cons piece pieces ih =>
    obtain ⟨first, others⟩ := List.forall_mem_cons.1 atoms
    simp only [namedBranch, nullableBranch, first, ih others]

theorem nullableBranches_named (known known' : Text → Bool) (branches : Pattern)
    (atoms : ∀ branch ∈ branches, ∀ piece ∈ branch,
      (piece.atom.named name source).nullable known' = piece.atom.nullable known) :
    nullableBranches known' (namedBranches name source branches) =
      nullableBranches known branches := by
  induction branches with
  | nil => rfl
  | cons branch branches ih =>
    obtain ⟨first, others⟩ := List.forall_mem_cons.1 atoms
    simp only [namedBranches, nullableBranches, nullableBranch_named _ _ _ first, ih others]

theorem Atom.nullable_named (learns : Learns name source meanings meanings') {atom : Atom}
    (well : atom.WellRead) (unused : name ∉ atom.names) :
    (atom.named name source).nullable meanings'.nullable = atom.nullable meanings.nullable := by
  induction well with
  | char | oneOf => rfl
  | reference label other =>
    rw [names, List.mem_singleton] at unused
    simpa only [named, nullable] using learns.nullable_others unused
  | group text inner read parts ih =>
    rw [named, nullable]
    split
    · rename_i same
      subst same
      obtain ⟨inner', _, read', solid, _⟩ := learns.group
      obtain rfl : inner = inner' := Except.ok.inj (read.symm.trans read')
      rw [nullable, learns.nullable_name]
      exact solid.symm
    · rw [nullable]
      rw [names] at unused
      exact nullableBranches_named _ _ inner fun branch mem piece mem' =>
        ih branch mem piece mem' fun among => unused (Pattern.mem_names mem mem' among)

theorem Pattern.nullable_named (learns : Learns name source meanings meanings') {text : Text}
    {pattern : Pattern} (read : Pattern.read text = .ok pattern) (unused : name ∉ pattern.names) :
    Pattern.nullable meanings'.nullable (namedBranches name source pattern) =
      pattern.nullable meanings.nullable :=
  nullableBranches_named _ _ pattern fun branch mem piece mem' =>
    Atom.nullable_named learns (wellRead_of_read read branch mem piece mem')
      fun among => unused (Pattern.mem_names mem mem' among)

theorem freshBranch_named {R : Group → Group → Prop} (pieces : List (Piece Atom))
    (atoms : ∀ piece ∈ pieces, Option.Rel (Link.Twin R) (piece.atom.freshLink meanings)
      ((piece.atom.named name source).freshLink meanings')) :
    Option.Rel (List.Forall₂ (Piece.Twin R)) (freshBranch meanings pieces)
      (freshBranch meanings' (namedBranch name source pieces)) := by
  induction pieces with
  | nil => exact .some .nil
  | cons piece pieces ih =>
    obtain ⟨first, others⟩ := List.forall_mem_cons.1 atoms
    simp only [namedBranch, freshBranch]
    refine rel_bind first fun link link' twin => ?_
    exact rel_map (ih others) fun _ _ more => .cons ⟨twin, rfl⟩ more

theorem freshBranches_named {R : Group → Group → Prop} (branches : Pattern)
    (atoms : ∀ branch ∈ branches, ∀ piece ∈ branch, Option.Rel (Link.Twin R)
      (piece.atom.freshLink meanings) ((piece.atom.named name source).freshLink meanings')) :
    Option.Rel (Branches.Twin R) (freshBranches meanings branches)
      (freshBranches meanings' (namedBranches name source branches)) := by
  induction branches with
  | nil => exact .some .nil
  | cons branch branches ih =>
    obtain ⟨first, others⟩ := List.forall_mem_cons.1 atoms
    simp only [namedBranches, freshBranches]
    refine rel_bind (freshBranch_named branch first) fun links links' twins => ?_
    exact rel_map (ih others) fun _ _ more => .cons twins more

theorem Atom.freshLink_named (learns : Learns name source meanings meanings') {atom : Atom}
    (well : atom.WellRead) (unused : name ∉ atom.names) :
    Option.Rel (Link.Twin (Group.Twin (Renamed name source meanings.generation)))
      (atom.freshLink meanings) ((atom.named name source).freshLink meanings') := by
  induction well with
  | char | oneOf =>
    simp only [named, freshLink]
    exact .some (.chars _)
  | reference label other =>
    rw [names, List.mem_singleton] at unused
    simp only [named, freshLink, learns.others other unused]
    cases known : meanings.group? other with
    | none => exact .none
    | some group =>
      obtain ⟨generation, -, id⟩ := learns.tidy other group known
      refine .some (.group group group label ⟨?_, .refl group⟩)
      rw [id]
      exact .name other unused generation
  | group text inner read parts ih =>
    rw [names] at unused
    rw [named]
    split
    · -- The group is made of the same links as that of the name.
      rename_i same
      subst same
      obtain ⟨inner', branches, read', -, made, known⟩ := learns.group
      obtain rfl : inner = inner' := Except.ok.inj (read.symm.trans read')
      rw [freshLink, freshLink, made, known]
      refine .some (.group _ _ none ⟨.here, ?_, ?_⟩)
      · exact funext fun input => Group.run_ofBranches ..
      · rw [Group.nullable_ofBranches, Group.nullable_ofBranches]
    · rename_i other
      have rows := freshBranches_named inner fun branch mem piece mem' =>
        ih branch mem piece mem' fun among => unused (Pattern.mem_names mem mem' among)
      rw [freshLink, freshLink, learns.generation]
      refine rel_map rows fun links links' twins => .group _ _ none ⟨?_, ?_⟩
      · exact .group text inner read unused other
      · exact Group.readsAs_ofBranches (pairs_renamed learns.proper _) twins _ _

theorem Pattern.freshBranches_named (learns : Learns name source meanings meanings') {text : Text}
    {pattern : Pattern} (read : Pattern.read text = .ok pattern) (unused : name ∉ pattern.names) :
    Option.Rel (Branches.Twin (Group.Twin (Renamed name source meanings.generation)))
      (freshBranches meanings pattern)
      (freshBranches meanings' (namedBranches name source pattern)) :=
  OpGrammar.freshBranches_named pattern fun branch mem piece mem' =>
    Atom.freshLink_named learns (wellRead_of_read read branch mem piece mem')
      fun among => unused (mem_names mem mem' among)

theorem Pattern.knowsAll_named (learns : Learns name source meanings meanings') {text : Text}
    {pattern : Pattern} (read : Pattern.read text = .ok pattern) (unused : name ∉ pattern.names) :
    meanings'.KnowsAll (namesOfBranches (namedBranches name source pattern)) ↔
      meanings.KnowsAll pattern.names := by
  have same := map_eq_of_rel (freshBranches_named learns read unused) fun _ _ _ => (rfl : () = ())
  rw [← isSome_freshBranches, names, ← isSome_freshBranches, ← Option.isSome_map, ← same,
    Option.isSome_map]

end Patterns

/-! ## Two lexicons -/

/-- The pattern with a reference to the name for every group that is written so. A text that is no
pattern stays as it is. -/
def withName (name source text : Text) : Text :=
  match Pattern.read text with
  | .ok _ => nameGroups name source text
  | .error _ => text

theorem withName_of_read {name source text : Text} {pattern : Pattern}
    (read : Pattern.read text = .ok pattern) :
    withName name source text = nameGroups name source text := by
  rw [withName, read]

namespace Lexicon

theorem extend_of_not_accepts {lexicon : Lexicon ν}
    (coherent : Coherent lexicon.meanings lexicon.inlineGroups) {text : Text} {value : ν}
    (refused : ¬lexicon.Accepts (.pattern text value)) :
    lexicon.extend (.pattern text value) = lexicon := by
  rw [extend_pattern]
  cases taken : insert text value lexicon with
  | ok _ lexicon' => exact absurd ⟨lexicon', taken⟩ refused
  | error e lexicon' => exact (refuses_of_error coherent taken).1

/-- Both lexicons took the same patterns, the second one with the name in them. -/
structure Beside (name source : Text) (meanings meanings' : Meanings)
    (lexicon lexicon' : Lexicon ν) : Prop where
  first : lexicon.meanings = meanings
  second : lexicon'.meanings = meanings'
  coherent : Coherent lexicon.meanings lexicon.inlineGroups
  coherent' : Coherent lexicon'.meanings lexicon'.inlineGroups
  read : ∀ text ∈ lexicon.patterns, ∃ pattern, Pattern.read text = .ok pattern ∧
    name ∉ pattern.names
  patterns : lexicon'.patterns = lexicon.patterns.map (nameGroups name source)
  graph : lexicon.graph.Twin (Group.Twin (Renamed name source meanings.generation)) lexicon'.graph

section Beside

variable {name source : Text} {meanings meanings' : Meanings} {lexicon lexicon' : Lexicon ν}
  {text : Text} {pattern : Pattern}

theorem Beside.old (beside : Beside name source meanings meanings' lexicon lexicon')
    (proper : isName name) (read : Pattern.read text = .ok pattern)
    (unused : name ∉ pattern.names) :
    nameGroups name source text ∈ lexicon'.patterns ↔ text ∈ lexicon.patterns := by
  rw [beside.patterns, List.mem_map]
  constructor
  · rintro ⟨text', mem, same⟩
    obtain ⟨pattern', read', unused'⟩ := beside.read text' mem
    rwa [nameGroups_injective proper read read' unused unused' same.symm]
  · intro mem
    exact ⟨text, mem, rfl⟩

theorem Beside.accepts (beside : Beside name source meanings meanings' lexicon lexicon')
    (learns : Learns name source meanings meanings') (read : Pattern.read text = .ok pattern)
    (unused : name ∉ pattern.names) (value : ν) :
    lexicon.Accepts (.pattern text value) ↔
      lexicon'.Accepts (.pattern (nameGroups name source text) value) := by
  have read' : Pattern.read (nameGroups name source text) = _ :=
    read_nameGroups learns.proper read unused
  rw [accepts_pattern_iff beside.coherent, accepts_pattern_iff beside.coherent',
    beside.old learns.proper read unused, beside.first, beside.second]
  simp only [read, read', Except.ok.injEq, exists_eq_left']
  rw [Pattern.nullable_named learns read unused]
  exact and_congr_right fun _ => and_congr_left fun _ =>
    (Pattern.knowsAll_named learns read unused).symm

theorem Beside.insert (beside : Beside name source meanings meanings' lexicon lexicon')
    (learns : Learns name source meanings meanings') (text : Text) (value : ν)
    (unused : name ∉ (Call.enter (.pattern text value)).names) :
    (lexicon.Accepts (.pattern text value) ↔
        lexicon'.Accepts (.pattern (withName name source text) value)) ∧
      Beside name source meanings meanings' (lexicon.extend (.pattern text value))
        (lexicon'.extend (.pattern (withName name source text) value)) := by
  cases read : Pattern.read text with
  | error e =>
    have refused (lexicon : Lexicon ν) (coherent : Coherent lexicon.meanings lexicon.inlineGroups) :
        ¬lexicon.Accepts (.pattern text value) := by
      rw [accepts_pattern_iff coherent, read]
      simp
    have first := refused lexicon beside.coherent
    have second := refused lexicon' beside.coherent'
    have same : withName name source text = text := by rw [withName, read]
    rw [same, extend_of_not_accepts beside.coherent first,
      extend_of_not_accepts beside.coherent' second]
    exact ⟨iff_of_false first second, beside⟩
  | ok pattern =>
    rw [Call.names, read] at unused
    have both := beside.accepts learns read unused value
    rw [withName_of_read read]
    refine ⟨both, ?_⟩
    by_cases taken : lexicon.Accepts (.pattern text value)
    · have taken' := both.1 taken
      have read' : Pattern.read (nameGroups name source text) = _ :=
        read_nameGroups learns.proper read unused
      obtain ⟨branches, groups, fresh, current, eq⟩ := extend_of_read beside.coherent taken read
      obtain ⟨branches', groups', fresh', current', eq'⟩ :=
        extend_of_read beside.coherent' taken' read'
      have twins := Pattern.freshBranches_named learns read unused
      rw [← beside.first, ← beside.second, fresh, fresh'] at twins
      rw [eq, eq']
      cases twins with
      | some twins =>
        refine ⟨beside.first, beside.second, current, current', ?_, ?_, ?_⟩
        · exact List.forall_mem_cons.2 ⟨⟨pattern, read, unused⟩, beside.read⟩
        · exact congrArg (_ :: ·) beside.patterns
        · rw [beside.first] at twins
          exact beside.graph.addPattern (pairs_renamed learns.proper _) twins value
    · rw [extend_of_not_accepts beside.coherent taken,
        extend_of_not_accepts beside.coherent' fun taken' => taken (both.2 taken')]
      exact beside

end Beside

/-! ## Some patterns -/

/-- Which of some entries are taken, each after those before it. -/
def takes (lexicon : Lexicon ν) : List (Entry ν) → List Bool
  | [] => []
  | entry :: entries => decide (lexicon.Accepts entry) :: (lexicon.extend entry).takes entries

theorem ofEntries_append (entries more : List (Entry ν)) :
    ofEntries (entries ++ more) = more.foldl extend (ofEntries entries) :=
  List.foldl_append

theorem Beside.foldl {name source : Text} {meanings meanings' : Meanings}
    {lexicon lexicon' : Lexicon ν} (beside : Beside name source meanings meanings' lexicon lexicon')
    (learns : Learns name source meanings meanings') (patterns : List (Text × ν))
    (unused : ∀ entry ∈ patterns, name ∉ (Call.enter (.pattern entry.1 entry.2)).names) :
    let inline := patterns.map fun (text, value) => Entry.pattern text value
    let named := patterns.map fun (text, value) => Entry.pattern (withName name source text) value
    lexicon.takes inline = lexicon'.takes named ∧
      Beside name source meanings meanings' (inline.foldl extend lexicon)
        (named.foldl extend lexicon') := by
  induction patterns generalizing lexicon lexicon' with
  | nil => exact ⟨rfl, beside⟩
  | cons entry patterns ih =>
    obtain ⟨text, value⟩ := entry
    obtain ⟨first, others⟩ := List.forall_mem_cons.1 unused
    obtain ⟨both, next⟩ := beside.insert learns text value first
    obtain ⟨later, last⟩ := ih next others
    refine ⟨?_, last⟩
    simp only [List.map_cons, takes, decide_eq_decide.2 both]
    exact congrArg _ later

theorem ofEntries_meanings (names : List (Text × Text)) :
    let lexicon : Lexicon ν := ofEntries (names.map fun (name, text) => .meaning name text)
    lexicon.graph = Graph.empty ∧ lexicon.patterns = [] := by
  intro lexicon
  induction names using List.reverseRecOn with
  | nil => exact ⟨rfl, rfl⟩
  | append_singleton names entry ih =>
    obtain ⟨name, text⟩ := entry
    subst lexicon
    rw [List.map_append, List.map_singleton, ofEntries_concat]
    rwa [extend_meaning_graph, extend_meaning_patterns]

theorem learns_of_accepts {entries : List (Entry ν)} {name source : Text} {inner : Pattern}
    (unknown : (ofEntries entries).knows name = false)
    (accepts : (ofEntries entries).Accepts (.meaning name source))
    (read : Pattern.read source = .ok inner)
    (solid : inner.nullable (ofEntries entries).meanings.nullable = false) :
    Learns name source (ofEntries entries).meanings
      (ofEntries (entries ++ [.meaning name source])).meanings := by
  obtain ⟨lexicon', taken⟩ := accepts
  have taken : setMeaning name source (ofEntries entries) = .ok () lexicon' := taken
  have cases := setMeaning_cases (ofEntries entries) name source
  rw [ofEntries_concat, extend_meaning]
  rw [taken] at cases ⊢
  cases cases with
  | changed _ _ _ known =>
    rw [unknown] at known
    cases known
  | first pattern branches groups _ read' links proper =>
    obtain rfl : inner = pattern := Except.ok.inj (read.symm.trans read')
    have fresh := (fresh_of_links (ofEntries_coherent entries) read links).1
    refine ⟨proper, (ofEntries_identifies entries).tidy, rfl, fun other unused => ?_, ?_⟩
    · rw [Meanings.group?_cons, if_neg (Ne.symm unused)]
    · refine ⟨inner, branches, read, solid, fresh, ?_⟩
      rw [Meanings.group?_cons, if_pos rfl]

/-- A name that gets the meaning of a pattern can stand for the pattern in parentheses, at any depth
of the patterns that come then: the same of them are taken, and the same is found. -/
theorem name_for_group (names : List (Text × Text)) (name source : Text) (inner : Pattern)
    (patterns : List (Text × ν)) :
    let before : List (Entry ν) := names.map fun (name, text) => .meaning name text
    let inline := patterns.map fun (text, value) => Entry.pattern text value
    let named := patterns.map fun (text, value) => Entry.pattern (withName name source text) value
    let after := before ++ [.meaning name source]
    (ofEntries before).knows name = false → (ofEntries before).Accepts (.meaning name source) →
      Pattern.read source = .ok inner →
      inner.nullable (ofEntries before).meanings.nullable = false →
      (∀ entry ∈ patterns, name ∉ (Call.enter (.pattern entry.1 entry.2)).names) →
      (ofEntries before).takes inline = (ofEntries after).takes named ∧
        ∀ input, (ofEntries (before ++ inline)).longest? input =
          (ofEntries (after ++ named)).longest? input := by
  intro before inline named after unknown accepts read solid unused
  have learns : Learns name source (ofEntries before).meanings (ofEntries after).meanings :=
    learns_of_accepts unknown accepts read solid
  obtain ⟨graph, none⟩ :
      (ofEntries before).graph = Graph.empty ∧ (ofEntries before).patterns = [] :=
    ofEntries_meanings names
  have start : Beside name source (ofEntries before).meanings (ofEntries after).meanings
      (ofEntries before) (ofEntries after) := by
    refine ⟨rfl, rfl, ofEntries_coherent before, ofEntries_coherent after, ?_, ?_, ?_⟩
    · simp [none]
    · rw [ofEntries_concat, extend_meaning_patterns, none]
      rfl
    · rw [ofEntries_concat, extend_meaning_graph, graph]
      exact Graph.twin_empty _
  obtain ⟨same, last⟩ := start.foldl learns patterns unused
  refine ⟨same, fun input => ?_⟩
  rw [ofEntries_append, ofEntries_append]
  exact congrArg (Option.map _) (last.graph.walk (pairs_renamed learns.proper _) [0] 0 input)

/-- The third pattern is there already, the fourth matches the empty text, and the fifth is no
pattern. The group comes at the start, in another group, and after itself. -/
theorem name_for_group_shared :
    let source : Text := "a\x7bx:D\x7d|b+".toList
    let patterns : List (Text × Nat) := [("(a\x7bx:D\x7d|b+)y".toList, 1),
      ("((a\x7bx:D\x7d|b+),?)*z".toList, 2), ("(a\x7bx:D\x7d|b+)y".toList, 3),
      ("(a\x7bx:D\x7d|b+)?".toList, 4), ("(a\x7bx:D\x7d|b+)(".toList, 5),
      ("(a\x7bx:D\x7d|b+)*(a\x7bx:D\x7d|b+)z".toList, 6)]
    let before : List (Entry Nat) := [.meaning ['D'] "[0-9]+".toList]
    let after := before ++ [.meaning ['N'] source]
    let inline := patterns.map fun (text, value) => Entry.pattern text value
    let named : List (Entry Nat) := [.pattern "\x7bN\x7dy".toList 1,
      .pattern "(\x7bN\x7d,?)*z".toList 2, .pattern "\x7bN\x7dy".toList 3,
      .pattern "\x7bN\x7d?".toList 4, .pattern "(a\x7bx:D\x7d|b+)(".toList 5,
      .pattern "\x7bN\x7d*\x7bN\x7dz".toList 6]
    (ofEntries before).takes inline = [true, true, false, false, false, true] ∧
      (ofEntries after).takes named = [true, true, false, false, false, true] ∧
      ∀ input, (ofEntries (before ++ inline)).longest? input =
        (ofEntries (after ++ named)).longest? input := by
  intro source patterns before after inline named
  have spelled : patterns.map (fun (text, value) =>
      Entry.pattern (withName ['N'] source text) value) = named := by decide +kernel
  have taken : (ofEntries before).takes inline = [true, true, false, false, false, true] := by
    decide +kernel
  have read : Pattern.read source = .ok [[⟨.char 'a', .once⟩,
      ⟨.reference (some ['x']) ['D'], .once⟩], [⟨.char 'b', .oneOrMore⟩]] := by
    with_unfolding_all rfl
  have both := name_for_group [(['D'], "[0-9]+".toList)] ['N'] source _ patterns
    (by decide +kernel) (by decide +kernel) read (by decide +kernel) (by decide +kernel)
  rw [spelled] at both
  exact ⟨taken, both.1 ▸ taken, both.2⟩

end Lexicon

end OpGrammar
