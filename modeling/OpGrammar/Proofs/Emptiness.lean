import OpGrammar.Proofs.Progress
import OpGrammar.Proofs.Refusal
import OpGrammar.Proofs.Soundness
import OpGrammar.Proofs.Writing

/-!
# The empty text

A pattern that describes the empty text should be refused. The test follows the groups in
parentheses, but of a name it asks only whether all pieces of some branch of its meaning may be left
out, so patterns are taken that describe the empty text by way of a name.
-/

open scoped Computability

namespace OpGrammar

variable {ν : Type}

/-! ## Patterns that describe the empty text -/

theorem nil_mem_mul {l m : Language Char} : [] ∈ l * m ↔ [] ∈ l ∧ [] ∈ m := by
  rw [Language.mem_mul]
  constructor
  · rintro ⟨a, first, b, second, nil⟩
    obtain ⟨rfl, rfl⟩ := List.append_eq_nil_iff.1 nil
    exact ⟨first, second⟩
  · rintro ⟨first, second⟩
    exact ⟨[], first, [], second, rfl⟩

theorem Quantifier.nil_mem_language {l : Language Char} (quantifier : Quantifier) :
    [] ∈ quantifier.language l ↔ quantifier.allowsNone ∨ [] ∈ l := by
  rw [language_eq, Language.mem_add, nil_mem_mul]
  have again := nil_mem_again quantifier.allowsMore l
  cases quantifier.allowsNone <;> simp [again]

section Nullable

open scoped Classical

variable {names : Text → Language Char}

mutual

theorem Atom.nil_mem_language (atom : Atom) :
    [] ∈ atom.language names ↔ atom.nullable ([] ∈ names ·) := by
  cases atom with
  | char c =>
    have other : ([] : Text) ∉ ({[c]} : Language Char) := fun same => by cases same
    simp [Atom.language, Atom.nullable, other]
  | oneOf items => simp [Atom.language, Atom.nullable, mem_classLanguage]
  | group source inner =>
    rw [Atom.language, Atom.nullable]
    exact nil_mem_languageOfInner inner
  | reference label name =>
    rw [Atom.language, Atom.nullable]
    exact decide_eq_true_iff.symm

theorem nil_mem_languageOfInner (branches : List (List (Piece Atom))) :
    [] ∈ languageOfInner names branches ↔ nullableBranches ([] ∈ names ·) branches := by
  cases branches with
  | nil => simp [languageOfInner, nullableBranches]
  | cons branch branches =>
    rw [languageOfInner, nullableBranches, Language.mem_add, Bool.or_eq_true,
      nil_mem_languageOfPieces branch, nil_mem_languageOfInner branches]

theorem nil_mem_languageOfPieces (pieces : List (Piece Atom)) :
    [] ∈ languageOfPieces names pieces ↔ nullableBranch ([] ∈ names ·) pieces := by
  cases pieces with
  | nil => simp [languageOfPieces, nullableBranch]
  | cons piece pieces =>
    obtain ⟨atom, quantifier⟩ := piece
    rw [languageOfPieces, nullableBranch, nil_mem_mul, quantifier.nil_mem_language,
      atom.nil_mem_language, nil_mem_languageOfPieces pieces]
    simp

end

theorem Pattern.nil_mem_language (pattern : Pattern) :
    [] ∈ pattern.language names ↔ pattern.nullable ([] ∈ names ·) := by
  rw [← languageOfInner_eq]
  exact nil_mem_languageOfInner pattern

end Nullable

section Mono

variable {known known' : Text → Bool}

mutual

theorem Atom.nullable_mono (atom : Atom) (more : ∀ name ∈ atom.names, known name → known' name)
    (nullable : atom.nullable known) : atom.nullable known' := by
  cases atom with
  | char c | oneOf items => cases nullable
  | group source inner =>
    rw [Atom.nullable] at nullable ⊢
    rw [Atom.names] at more
    exact nullableBranches_mono inner more nullable
  | reference label name =>
    rw [Atom.nullable] at nullable ⊢
    exact more name (by simp [Atom.names]) nullable

theorem nullableBranches_mono (branches : List (List (Piece Atom)))
    (more : ∀ name ∈ namesOfBranches branches, known name → known' name)
    (nullable : nullableBranches known branches) : nullableBranches known' branches := by
  cases branches with
  | nil => cases nullable
  | cons branch branches =>
    rw [nullableBranches, Bool.or_eq_true] at nullable ⊢
    simp only [namesOfBranches, List.forall_mem_append] at more
    exact nullable.imp (nullableBranch_mono branch more.1) (nullableBranches_mono branches more.2)

theorem nullableBranch_mono (pieces : List (Piece Atom))
    (more : ∀ name ∈ namesOfBranch pieces, known name → known' name)
    (nullable : nullableBranch known pieces) : nullableBranch known' pieces := by
  cases pieces with
  | nil => rfl
  | cons piece pieces =>
    obtain ⟨atom, quantifier⟩ := piece
    rw [nullableBranch, Bool.and_eq_true, Bool.or_eq_true] at nullable ⊢
    simp only [namesOfBranch, List.forall_mem_append] at more
    exact ⟨nullable.1.imp_right (atom.nullable_mono more.1),
      nullableBranch_mono pieces more.2 nullable.2⟩

end

end Mono

section Nullable

variable {names : Text → Language Char} {known : Text → Bool} {pattern : Pattern}

theorem Pattern.nil_mem_of_nullable
    (right : ∀ name ∈ pattern.names, known name → [] ∈ names name)
    (nullable : pattern.nullable known) : [] ∈ pattern.language names := by
  classical
  exact pattern.nil_mem_language.2 (nullableBranches_mono pattern
    (fun name mem knows => decide_eq_true (right name mem knows)) nullable)

theorem Pattern.nullable_of_nil_mem
    (seen : ∀ name ∈ pattern.names, [] ∈ names name → known name)
    (mem : [] ∈ pattern.language names) : pattern.nullable known := by
  classical
  exact nullableBranches_mono pattern
    (fun name mem empty => seen name mem (of_decide_eq_true empty)) (pattern.nil_mem_language.1 mem)

end Nullable

/-- Whether all pieces of some branch may be left out. -/
def Branches.skippable {α : Type} (branches : Branches α) : Bool :=
  branches.any (·.all (·.quantifier.allowsNone))

theorem Pattern.nullable_of_skippable {pattern : Pattern} (skippable : pattern.skippable)
    (known : Text → Bool) : pattern.nullable known := by
  obtain ⟨branch, mem, all⟩ := List.any_eq_true.1 skippable
  have first : nullableBranch known branch := by
    clear mem
    induction branch with
    | nil => rfl
    | cons piece pieces ih =>
      rw [List.all_cons, Bool.and_eq_true] at all
      rw [nullableBranch, all.1, ih all.2]
      rfl
  unfold Pattern.nullable
  induction pattern with
  | nil => cases mem
  | cons other pattern ih =>
    rw [nullableBranches, Bool.or_eq_true]
    rcases List.mem_cons.1 mem with rfl | later
    · exact .inl first
    · exact .inr (ih (List.any_eq_true.2 ⟨branch, later, all⟩) later)

/-! ## What the test sees of a name -/

namespace Graph

variable {graph : Graph Group ν}

theorem zero_mem_addBranch (proper : graph.Proper) (frontier : List Nat)
    (pieces : List (Piece Link)) : 0 ∈ (graph.addBranch frontier pieces).2 ↔
      0 ∈ frontier ∧ pieces.all (·.quantifier.allowsNone) := by
  induction pieces generalizing graph frontier with
  | nil => simp [addBranch]
  | cons piece pieces ih =>
    obtain ⟨graph', reached, eq, swept⟩ := addPiece_spec proper frontier piece
    have away : 0 ∉ reached := by
      intro mem
      obtain ⟨before, goes⟩ := swept.goes_to 0 mem
      exact Nat.lt_irrefl 0 (swept.proper.goes piece.atom before 0 goes).1
    unfold addBranch
    rw [eq]
    dsimp only
    rw [ih swept.proper, mem_after, List.all_cons, Bool.and_eq_true]
    tauto

theorem zero_mem_addBranches (proper : graph.Proper) (branches : Branches Link) :
    0 ∈ (graph.addBranches [0] branches).2 ↔ branches.skippable := by
  induction branches generalizing graph with
  | nil => simp [addBranches, Branches.skippable]
  | cons branch branches ih =>
    have first := zero_mem_addBranch proper [0] branch
    have later := ih (addBranch_grows proper [0] branch).2
    unfold addBranches
    rw [mem_joinNodes, first, later]
    simp [Branches.skippable]

theorem walk_nil (solid : graph.Solid) (run : Group → Text → Option (Found Unit))
    (groups : ∀ node, graph[0]? = some node → ∀ hop ∈ node.hops, ∀ text found,
      run hop.group text = some found → 0 < found.length) : graph.walk run [0] 0 [] = none := by
  cases present : graph[0]? with
  | none => exact walk_of_missing present
  | some node =>
    have edge : ([] : Text).head?.bind node.edge? = none := rfl
    cases taken : graph.firstHop? run [0] [] node.hops with
    | none =>
      rw [walk_of_stop present edge taken, solid.value node present]
      rfl
    | some taken' =>
      obtain ⟨hop, first⟩ := taken'
      obtain ⟨mem, ran, advances⟩ := of_firstHop? taken
      have pos := groups node present hop mem [] first ran
      rw [Advances, if_neg (by omega)] at advances
      exact absurd rfl advances

end Graph

theorem Group.nullable_ofBranches (id : GroupId) (branches : Branches Link) :
    (Group.ofBranches id branches).nullable = branches.skippable := by
  have proper : (Graph.empty : Graph Group Unit).Proper := Graph.proper_empty
  have ends := Graph.zero_mem_addBranches proper branches
  have inside := (Graph.addPattern_grows proper branches ()).2.nonempty
  obtain ⟨node, present⟩ : ∃ node, (Graph.empty.addPattern branches ())[0]? = some node :=
    ⟨_, Array.getElem?_eq_getElem inside⟩
  rw [Bool.eq_iff_iff, ← ends]
  unfold nullable ofBranches
  rw [graph_mk, present]
  constructor
  · intro some
    obtain ⟨w, known⟩ := Option.isSome_iff_exists.1 some
    rcases Graph.addPattern_value proper branches () 0 node w present known with
      ⟨old, before, value⟩ | ⟨-, mem⟩
    · obtain ⟨_, rfl⟩ := Array.getElem?_eq_some_iff.1 before
      cases value
    · exact mem
  · intro mem
    exact Graph.addPattern_ends branches () 0 mem node present

theorem skippable_of_freshBranches {meanings : Meanings} {pattern : Pattern}
    {branches : Branches Link} (made : freshBranches meanings pattern = some branches) :
    branches.skippable = pattern.skippable := by
  have row {pieces : List (Piece Atom)} {links : List (Piece Link)}
      (made : List.Forall₂ (MakesPiece meanings) pieces links) :
      links.all (·.quantifier.allowsNone) = pieces.all (·.quantifier.allowsNone) := by
    induction made with
    | nil => rfl
    | cons first _ ih => rw [List.all_cons, List.all_cons, first.1, ih]
  have rows := freshBranches_eq_some.1 made
  clear made
  unfold Branches.skippable
  induction rows with
  | nil => rfl
  | cons first _ ih => rw [List.any_cons, List.any_cons, row first, ih]

namespace Lexicon

/-! ## What the names mean -/

/-- The names whose meaning may be skipped, after an entry. -/
def skipsAfter (lexicon : Lexicon ν) (skips : Text → Bool) : Entry ν → Text → Bool
  | .pattern _ _ => skips
  | .meaning name text =>
    match enter (.meaning name text) lexicon, Pattern.read text with
    | .ok _ _, .ok pattern => Function.update skips name pattern.skippable
    | _, _ => skips

/-- The names that mean a pattern of which all pieces of some branch may be left out. -/
def skipsOf (entries : List (Entry ν)) : Text → Bool :=
  (entries.foldl (fun state entry => (state.1.extend entry, skipsAfter state.1 state.2 entry))
    (empty, fun _ => false)).2

theorem skipsOf_concat (entries : List (Entry ν)) (entry : Entry ν) :
    skipsOf (entries ++ [entry]) = skipsAfter (ofEntries entries) (skipsOf entries) entry := by
  rw [skipsOf, List.foldl_concat, fst_foldl_extend, skipsOf]

theorem setMeaning_gives {lexicon lexicon' : Lexicon ν}
    (coherent : Coherent lexicon.meanings lexicon.inlineGroups) {name text : Text}
    (taken : setMeaning name text lexicon = .ok () lexicon') :
    ∃ pattern group generation, isName name ∧ Pattern.read text = .ok pattern ∧
      group.nullable = pattern.skippable ∧
      lexicon'.meanings = ⟨(name, group) :: lexicon.meanings.groups, generation⟩ := by
  have cases := setMeaning_cases lexicon name text
  rw [taken] at cases
  have nullable {pattern : Pattern} {branches : Branches Link} {groups : InlineGroups}
      (read : Pattern.read text = .ok pattern)
      (links : pattern.links lexicon.meanings lexicon.inlineGroups = .ok branches groups)
      (id : GroupId) : (Group.ofBranches id branches).nullable = pattern.skippable := by
    rw [Group.nullable_ofBranches,
      skippable_of_freshBranches (fresh_of_links coherent read links).1]
  cases cases with
  | first pattern branches groups unknown read links proper =>
    exact ⟨pattern, _, _, proper, read, nullable read links _, rfl⟩
  | changed pattern branches groups known read links proper =>
    exact ⟨pattern, _, _, proper, read, nullable read links _, rfl⟩

inductive NamesStep (entries : List (Entry ν)) (entry : Entry ν) : Prop
  | kept (same : (ofEntries (entries ++ [entry])).meanings = (ofEntries entries).meanings)
    (names : namesOf (entries ++ [entry]) = namesOf entries)
    (skips : skipsOf (entries ++ [entry]) = skipsOf entries)
  | given (name : Text) (pattern : Pattern) (group : Group) (generation : Nat)
    (proper : isName name) (nullable : group.nullable = pattern.skippable)
    (now : (ofEntries (entries ++ [entry])).meanings =
      ⟨(name, group) :: (ofEntries entries).meanings.groups, generation⟩)
    (names : namesOf (entries ++ [entry]) =
      Function.update (namesOf entries) name (pattern.language (namesOf entries)))
    (skips : skipsOf (entries ++ [entry]) =
      Function.update (skipsOf entries) name pattern.skippable)

theorem namesStep (entries : List (Entry ν)) (entry : Entry ν) : NamesStep entries entry := by
  have coherent := ofEntries_coherent entries
  have lexicons := ofEntries_concat entries entry
  have names := namesOf_concat entries entry
  have skips := skipsOf_concat entries entry
  cases entry with
  | pattern text value =>
    refine .kept ?_ names skips
    have cases := insert_cases (ofEntries entries) text value
    rw [lexicons, extend_pattern]
    generalize insert text value (ofEntries entries) = result at cases
    cases cases <;> rfl
  | meaning name text =>
    rw [extend_meaning] at lexicons
    cases eq : setMeaning name text (ofEntries entries) with
    | error e lexicon' =>
      have cases := setMeaning_cases (ofEntries entries) name text
      rw [eq] at lexicons cases
      refine .kept ?_ (names.trans (namesAfter_of_error eq)) ?_
      · rw [lexicons]
        cases cases <;> rfl
      · rw [skips]
        simp only [skipsAfter, enter, eq]
    | ok _ lexicon' =>
      rw [eq] at lexicons
      obtain ⟨pattern, group, generation, proper, read, nullable, now⟩ :=
        setMeaning_gives coherent eq
      refine .given name pattern group generation proper nullable ?_
        (names.trans (namesAfter_of_ok eq read)) ?_
      · rw [lexicons]
        exact now
      · rw [skips]
        simp only [skipsAfter, enter, eq, read]

/-- The test sees of a name what `skipsOf` says, and is right where it finds the empty text. -/
structure Tests (entries : List (Entry ν)) (name : Text) : Prop where
  nullable : (ofEntries entries).meanings.nullable name = skipsOf entries name
  empty : skipsOf entries name → [] ∈ namesOf entries name
  proper : (ofEntries entries).knows name → isName name

theorem tests_name (entries : List (Entry ν)) (name : Text) : Tests entries name := by
  induction entries using List.reverseRecOn with
  | nil => exact ⟨rfl, fun skips => (by cases skips), fun known => (by cases known)⟩
  | append_singleton entries entry ih =>
    cases namesStep entries entry with
    | kept same names skips =>
      refine ⟨?_, ?_, ?_⟩
      · rw [same, skips, ih.nullable]
      · rw [names, skips]
        exact ih.empty
      · rw [Lexicon.knows, same]
        exact ih.proper
    | given name' pattern group generation proper nullable now names skips =>
      by_cases same : name = name'
      · subst same
        refine ⟨?_, fun skippable => ?_, fun _ => proper⟩
        · rw [Meanings.nullable, now, Meanings.group?_cons, if_pos rfl, skips,
            Function.update_self, ← nullable]
          rfl
        · rw [skips, Function.update_self] at skippable
          rw [names, Function.update_self]
          exact Pattern.nil_mem_of_nullable (fun _ _ known => by cases known)
            (Pattern.nullable_of_skippable skippable fun _ => false)
      · refine ⟨?_, ?_, fun known => ih.proper ?_⟩
        · rw [Meanings.nullable, now, Meanings.group?_cons, if_neg same, skips,
            Function.update_of_ne same, ← ih.nullable]
          rfl
        · rw [names, skips, Function.update_of_ne same, Function.update_of_ne same]
          exact ih.empty
        · rw [Lexicon.knows, now, Meanings.knows, Meanings.group?_cons, if_neg same] at known
          exact known

/-! ## A new pattern for a name -/

theorem read_labelled {label name : Text} (label' : isName label) (name' : isName name) :
    Pattern.read ('{' :: (label ++ ':' :: name ++ ['}'])) =
      .ok [[⟨.reference (some label) name, .once⟩]] := by
  have writable : Pattern.Writable [[⟨.reference (some label) name, .once⟩]] := by
    refine ⟨List.cons_ne_nil _ _, ?_⟩
    simp only [List.forall_mem_singleton]
    exact .reference _ _ name' (by simpa using label')
  simpa [Pattern.print, printBranches, printBranch, Atom.print, printReference, Quantifier.print]
    using read_of_reads writable.reads

theorem exists_new_reference (patterns : List Text) {name : Text} (proper : isName name) :
    ∃ text label, text ∉ patterns ∧
      Pattern.read text = .ok [[⟨.reference (some label) name, .once⟩]] := by
  -- The label alone is longer than any of the patterns.
  let label := List.replicate (patterns.flatten.length + 1) 'a'
  have label' : isName label := by
    refine isName_eq_true_iff.2 ⟨by simp [label], fun c mem => ?_⟩
    rw [List.eq_of_mem_replicate mem]
    decide +kernel
  refine ⟨_, label, fun mem => ?_, read_labelled label' proper⟩
  have small := (List.sublist_flatten_of_mem mem).length_le
  simp only [List.length_cons, List.length_append, List.length_replicate, label] at small
  omega

theorem nullable_reference (label : Option Text) (name : Text) (known : Text → Bool) :
    Pattern.nullable known [[⟨.reference label name, .once⟩]] = known name := by
  simp [Pattern.nullable, nullableBranches, nullableBranch, Atom.nullable, Quantifier.allowsNone]

/-! ## Which patterns are taken -/

variable {entries : List (Entry ν)}

theorem nullable_eq_skipsOf (entries : List (Entry ν)) :
    (ofEntries entries).meanings.nullable = skipsOf entries :=
  funext fun name => (tests_name entries name).nullable

/-- The pattern should be taken: it is new, can be read, refers to known names only and does not
describe the empty text. -/
def Lawful (entries : List (Entry ν)) (text : Text) : Prop :=
  (∀ value, ¬Registers entries text value) ∧ ∃ pattern, Pattern.read text = .ok pattern ∧
    (∀ name ∈ pattern.names, (ofEntries entries).knows name) ∧
    [] ∉ pattern.language (namesOf entries)

theorem accepts_iff (entries : List (Entry ν)) (text : Text) (value : ν) :
    (ofEntries entries).Accepts (.pattern text value) ↔ (∀ value, ¬Registers entries text value) ∧
      ∃ pattern, Pattern.read text = .ok pattern ∧
        (∀ name ∈ pattern.names, (ofEntries entries).knows name) ∧
        pattern.nullable (skipsOf entries) = false := by
  rw [accepts_pattern_iff (ofEntries_coherent entries), mem_patterns_iff, not_exists,
    nullable_eq_skipsOf]
  rfl

theorem accepts_of_lawful {text : Text} (lawful : Lawful entries text) (value : ν) :
    (ofEntries entries).Accepts (.pattern text value) := by
  obtain ⟨new, pattern, read, known, solid⟩ := lawful
  refine (accepts_iff entries text value).2 ⟨new, pattern, read, known, ?_⟩
  by_contra nullable
  exact solid (Pattern.nil_mem_of_nullable (fun name _ => (tests_name entries name).empty)
    (by simpa using nullable))

theorem lawful_iff (entries : List (Entry ν)) (value : ν) :
    (∀ text, (ofEntries entries).Accepts (.pattern text value) ↔ Lawful entries text) ↔
      ∀ name, (ofEntries entries).knows name → [] ∈ namesOf entries name →
        skipsOf entries name := by
  constructor
  · intro law name known empty
    obtain ⟨text, label, new, read⟩ :=
      exists_new_reference (ofEntries entries).patterns ((tests_name entries name).proper known)
    by_contra unseen
    have names : Pattern.names [[⟨.reference (some label) name, .once⟩]] = [name] := rfl
    have accepts : (ofEntries entries).Accepts (.pattern text value) := by
      rw [mem_patterns_iff, not_exists] at new
      refine (accepts_iff entries text value).2 ⟨new, _, read, ?_, ?_⟩
      · rw [names]
        simpa using known
      · simpa [nullable_reference] using unseen
    obtain ⟨-, pattern, read', -, solid⟩ := (law text).1 accepts
    obtain rfl := Except.ok.inj (read.symm.trans read')
    refine solid (Pattern.nil_mem_of_nullable (fun other mem _ => ?_)
      (nullable_reference label name fun _ => true))
    rw [names, List.mem_singleton] at mem
    exact mem ▸ empty
  · intro seen text
    refine ⟨fun accepts => ?_, fun lawful => accepts_of_lawful lawful value⟩
    obtain ⟨new, pattern, read, known, solid⟩ := (accepts_iff entries text value).1 accepts
    refine ⟨new, pattern, read, known, fun mem => ?_⟩
    rw [Pattern.nullable_of_nil_mem (fun name mem => seen name (known name mem)) mem] at solid
    cases solid

/-! ## Which matches are empty -/

theorem Solid.extend_taken {known : Text → Bool} {lexicon : Lexicon ν}
    (solid : lexicon.Solid known) (entry : Entry ν)
    (takes : lexicon.Accepts entry → solidEntry known entry) :
    (lexicon.extend entry).Solid known := by
  by_cases accepts : lexicon.Accepts entry
  · exact solid.extend entry (takes accepts)
  · unfold Lexicon.extend
    cases entered : enter entry lexicon with
    | ok _ left => exact absurd ⟨left, entered⟩ accepts
    | error e left =>
      obtain ⟨groups, -, coherent⟩ := alike_of_error solid.coherent entry entered
      exact ⟨solid.proper, coherent, solid.graph, solid.names⟩

theorem ofEntries_solid {known : Text → Bool}
    (takes : ∀ before entry, Took entries before entry → solidEntry known entry) :
    (ofEntries entries).Solid known := by
  induction entries using List.reverseRecOn with
  | nil => exact solid_empty known
  | append_singleton entries entry ih =>
    rw [ofEntries_concat]
    refine (ih fun before entry took => takes before entry (took.concat _)).extend_taken entry ?_
    exact fun accepts => takes entries entry (took_concat entry accepts)

theorem Solid.text_ne_nil {known : Text → Bool} {lexicon : Lexicon ν}
    (solid : lexicon.Solid known) {input : Text} {m : Match ν}
    (h : lexicon.longest? input = some m) : m.text ≠ [] := by
  obtain ⟨found, walked, rfl⟩ := Option.map_eq_some_iff.1 h
  have groups (node : Node Group ν) (present : lexicon.graph[0]? = some node) (hop : Hop Group)
      (mem : hop ∈ node.hops) := (solid.graph.hops node present hop mem).run_pos
  have pos := Graph.walk_pos solid.graph Group.run groups input found walked
  have some : input ≠ [] := by
    rintro rfl
    rw [Graph.walk_nil solid.graph Group.run groups] at walked
    cases walked
  intro none
  rcases List.take_eq_nil_iff.1 none with zero | nil
  · omega
  · exact some nil

/-- A pattern is taken exactly if it is new, can be read, refers to known names only, and is not one
of which some branch can be left out piece by piece, where a name can be left out if all pieces of a
branch of its meaning may be. So no pattern is refused that does not describe the empty text, and
none is taken that does exactly if every known name that describes the empty text can be left out.
No match is empty if the patterns that were taken take some text, names that they rely on
included. -/
theorem emptiness_test (entries : List (Entry ν)) (value : ν) :
    (∀ text, (ofEntries entries).Accepts (.pattern text value) ↔
      (∀ value, ¬Registers entries text value) ∧ ∃ pattern, Pattern.read text = .ok pattern ∧
        (∀ name ∈ pattern.names, (ofEntries entries).knows name) ∧
        pattern.nullable (skipsOf entries) = false) ∧
    (∀ text, Lawful entries text → (ofEntries entries).Accepts (.pattern text value)) ∧
    ((∀ text, (ofEntries entries).Accepts (.pattern text value) ↔ Lawful entries text) ↔
      ∀ name, (ofEntries entries).knows name → [] ∈ namesOf entries name →
        skipsOf entries name) ∧
    ∀ known, (∀ before entry, Took entries before entry → solidEntry known entry) →
      ∀ input m, (ofEntries entries).longest? input = some m → m.text ≠ [] :=
  ⟨fun text => accepts_iff entries text value, fun _ lawful => accepts_of_lawful lawful value,
    lawful_iff entries value, fun _ takes _ _ found => (ofEntries_solid takes).text_ne_nil found⟩

theorem emptiness_test_numbers :
    Lawful [.meaning ['n'] "[0-9]+".toList, .pattern "\x7bn\x7d".toList 0] ['x'] ∧
    (ofEntries [.meaning ['n'] "[0-9]+".toList, .pattern "\x7bn\x7d".toList 0]).Accepts
      (.pattern ['x'] 1) ∧
    ∀ input m, (ofEntries [.meaning ['n'] "[0-9]+".toList,
      .pattern "\x7bn\x7d".toList 0]).longest? input = some m → m.text ≠ [] := by
  have read : Pattern.read ['x'] = .ok [[⟨.char 'x', .once⟩]] := by cbv
  have lawful : Lawful [.meaning ['n'] "[0-9]+".toList, .pattern "\x7bn\x7d".toList 0] ['x'] := by
    refine ⟨not_exists.1 fun registers => ?_, _, read, by simp [Pattern.names, namesOfBranches,
      namesOfBranch, Atom.names], fun mem => ?_⟩
    · have old := (mem_patterns_iff _ _).2 registers
      revert old
      decide +kernel
    · have nullable : Pattern.nullable (fun _ => true) [[⟨.char 'x', .once⟩]] :=
        Pattern.nullable_of_nil_mem (fun _ _ _ => rfl) mem
      cases nullable
  have solid : ∀ entry ∈ ([.meaning ['n'] "[0-9]+".toList, .pattern "\x7bn\x7d".toList 0] :
      List (Entry Nat)), solidEntry (fun _ => true) entry := by
    decide +kernel
  have test := emptiness_test [.meaning ['n'] "[0-9]+".toList, .pattern "\x7bn\x7d".toList 0] 1
  refine ⟨lawful, test.2.1 _ lawful, test.2.2.2 (fun _ => true) ?_⟩
  rintro before entry ⟨after, eq, -⟩
  exact solid entry (eq ▸ by simp)

/-- The meaning of `X` describes the empty text, but not by pieces that may be left out. -/
example : (ofEntries [.meaning ['X'] "(#?)".toList]).Accepts
    (.pattern "\x7bX\x7d".toList 0) := by
  decide +kernel

end Lexicon

end OpGrammar
