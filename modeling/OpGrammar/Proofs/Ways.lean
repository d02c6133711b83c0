import OpGrammar.Lexicon.Graph
import OpGrammar.Proofs.Language

/-!
# Ways

A way is a row of letters, each a character or a group that stands for what it reads. Which ways lead
to one place is settled by the pieces in the order in which they come: a piece goes along what earlier
pieces have opened, and all that it opens itself is one place. So patterns share what they have in
common, and go on in common from there.
-/

open scoped Computability

namespace OpGrammar

inductive Letter where
  | char (c : Char)
  | group (id : GroupId) (label : Option Text)
  deriving DecidableEq

abbrev Way := List Letter

/-! ## Joined ways -/

/-- A piece where it stands: the ways before it in its branch, the letters that it reads, and whether
it may be read again. -/
structure Spot where
  past : Language Letter
  letters : Language Letter
  more : Bool

/-- The ways that lead nowhere yet and do when the piece is added. Each goes on with a letter of the
piece, from where a way leads along which the piece may be read, or from the place that is new. -/
inductive Spot.Opens (joined : Way → Way → Prop) (spot : Spot) : Way → Prop
  | first {x y : Way} {a : Letter} (before : y ∈ spot.past * again spot.more spot.letters)
    (same : joined x y) (reads : [a] ∈ spot.letters) (new : ¬joined (x ++ [a]) (x ++ [a])) :
    Opens joined spot (x ++ [a])
  | again {x : Way} {a : Letter} (more : spot.more) (opens : Opens joined spot x)
    (reads : [a] ∈ spot.letters) : Opens joined spot (x ++ [a])

/-- Two ways lead to one place after the piece. -/
def Spot.Joins (joined : Way → Way → Prop) (spot : Spot) (x y : Way) : Prop :=
  joined x y ∨ spot.Opens joined x ∧ spot.Opens joined y

/-- Two ways lead to one place after some pieces, of which the first comes first. -/
def Joined (spots : List Spot) : Way → Way → Prop :=
  spots.foldl Spot.Joins fun x y => x = [] ∧ y = []

theorem joined_concat (spots : List Spot) (spot : Spot) :
    Joined (spots ++ [spot]) = spot.Joins (Joined spots) :=
  List.foldl_concat ..

/-- The ways that lead to a place of one of the words. -/
def joinedWith (spots : List Spot) (words : Language Letter) : Language Letter :=
  {x | ∃ y ∈ words, Joined spots x y}

/-- One way comes to the piece, which reads one letter, once. -/
def Spot.Narrow (spot : Spot) : Prop :=
  spot.more = false ∧ ∃ w a, spot.past = {w} ∧ spot.letters = {[a]}

/-- Where all pieces are narrow, no two ways lead to one place: a piece opens at most one. -/
theorem eq_of_joined {spots : List Spot} (narrow : ∀ spot ∈ spots, spot.Narrow) {x y : Way}
    (joined : Joined spots x y) : x = y := by
  induction spots using List.reverseRecOn generalizing x y with
  | nil =>
    obtain ⟨rfl, rfl⟩ := joined
    rfl
  | append_singleton spots spot ih =>
    simp only [List.forall_mem_append, List.forall_mem_singleton] at narrow
    obtain ⟨narrow, once, w, a, past, letters⟩ := narrow
    have only {z : Way} (opens : spot.Opens (Joined spots) z) : z = w ++ [a] := by
      cases opens with
      | first before same reads new =>
        rw [once, again, if_neg Bool.false_ne_true, mul_one, past] at before
        rw [letters] at reads
        rw [ih narrow same, before, reads]
      | again more => exact absurd (once.symm.trans more) Bool.false_ne_true
    rw [joined_concat] at joined
    rcases joined with old | ⟨opens, opens'⟩
    · exact ih narrow old
    · rw [only opens, only opens']

section Spots

variable {α β : Type}

def spotsOfBranch (letters : α → Language Letter) (past : Language Letter) :
    List (Piece α) → List Spot
  | [] => []
  | ⟨atom, quantifier⟩ :: pieces =>
    ⟨past, letters atom, quantifier.allowsMore⟩ ::
      spotsOfBranch letters (past * quantifier.language (letters atom)) pieces

/-- All pieces of some branches where they stand. -/
def Branches.spots (letters : α → Language Letter) (branches : Branches α) : List Spot :=
  branches.flatMap (spotsOfBranch letters 1)

variable {letters : α → Language Letter} {letters' : β → Language Letter}

theorem narrow_spotsOfBranch {pieces : List (Piece α)}
    (single : ∀ piece ∈ pieces, piece.quantifier = .once ∧ ∃ a, letters piece.atom = {[a]}) (w : Way) :
    ∀ spot ∈ spotsOfBranch letters {w} pieces, spot.Narrow := by
  induction pieces generalizing w with
  | nil => exact List.forall_mem_nil _
  | cons piece pieces ih =>
    obtain ⟨atom, quantifier⟩ := piece
    obtain ⟨⟨rfl, a, reads⟩, others⟩ := List.forall_mem_cons.1 single
    have next : ({w} * Quantifier.once.language (letters atom) : Language Letter) = {w ++ [a]} := by
      rw [Quantifier.language, reads]
      exact Set.image2_singleton
    rw [spotsOfBranch, next]
    exact List.forall_mem_cons.2 ⟨⟨rfl, w, a, rfl, reads⟩, ih others (w ++ [a])⟩

def SameLetters (letters : α → Language Letter) (letters' : β → Language Letter) (piece : Piece α)
    (piece' : Piece β) : Prop :=
  piece'.quantifier = piece.quantifier ∧ letters' piece'.atom = letters piece.atom

theorem branch_congr {pieces : List (Piece α)} {pieces' : List (Piece β)}
    (same : List.Forall₂ (SameLetters letters letters') pieces pieces') :
    languageOfBranch letters' pieces' = languageOfBranch letters pieces ∧
      ∀ past, spotsOfBranch letters' past pieces' = spotsOfBranch letters past pieces := by
  induction same with
  | nil => exact ⟨rfl, fun _ => rfl⟩
  | cons first _ ih =>
    obtain ⟨often, reads⟩ := first
    refine ⟨?_, fun past => ?_⟩
    · rw [languageOfBranch, languageOfBranch, often, reads, ih.1]
    · rw [spotsOfBranch, spotsOfBranch, often, reads, ih.2]

theorem Branches.congr {branches : Branches α} {branches' : Branches β}
    (same : List.Forall₂ (List.Forall₂ (SameLetters letters letters')) branches branches') :
    branches'.language letters' = branches.language letters ∧
      branches'.spots letters' = branches.spots letters := by
  induction same with
  | nil => exact ⟨rfl, rfl⟩
  | cons first _ ih =>
    obtain ⟨words, places⟩ := branch_congr first
    refine ⟨?_, ?_⟩
    · rw [language, language, words, ih.1]
    · exact congrArg₂ _ (places 1) ih.2

end Spots

/-! ## What ways read -/

/-- What a letter reads, by what the groups read. -/
def Letter.language (groups : GroupId → Language Char) : Letter → Language Char
  | .char c => {[c]}
  | .group id _ => groups id

def Way.language (groups : GroupId → Language Char) (way : Way) : Language Char :=
  (way.map (Letter.language groups)).prod

def spelled (groups : GroupId → Language Char) (words : Language Letter) : Language Char :=
  {t | ∃ x ∈ words, t ∈ Way.language groups x}

section Spelled

variable {groups groups' : GroupId → Language Char} {words words' : Language Letter}
  {l l' : Language Char}

theorem Way.language_append (x y : Way) :
    Way.language groups (x ++ y) = Way.language groups x * Way.language groups y := by
  simp [language]

theorem Way.concat_mem_language {x : Way} {a : Letter} {t u : Text}
    (mem : t ∈ Way.language groups x) (reads : u ∈ a.language groups) :
    t ++ u ∈ Way.language groups (x ++ [a]) := by
  rw [language_append]
  exact Language.append_mem_mul mem (by simpa [language] using reads)

theorem Way.eq_chars_of_mem_language (none : ∀ id, groups id = 0) (x : Way) (t : Text)
    (mem : t ∈ Way.language groups x) : x = t.map .char := by
  induction x generalizing t with
  | nil =>
    obtain rfl := (Language.mem_one t).1 mem
    rfl
  | cons a x ih =>
    obtain ⟨u, first, t, rest, rfl⟩ := mem
    cases a with
    | char c =>
      obtain rfl : u = [c] := first
      rw [ih t rest]
      rfl
    | group id label =>
      have never : u ∈ groups id := first
      rw [none id] at never
      exact absurd never (Language.notMem_zero u)

theorem spelled_le_iff :
    spelled groups words ≤ l ↔ ∀ x ∈ words, Way.language groups x ≤ l :=
  ⟨fun le x mem _ reads => le ⟨x, mem, reads⟩, fun le _ ⟨x, mem, reads⟩ => le x mem reads⟩

theorem spelled_mono (le : words ≤ words') : spelled groups words ≤ spelled groups words' :=
  fun _ ⟨x, mem, reads⟩ => ⟨x, le mem, reads⟩

theorem spelled_one : spelled groups 1 ≤ 1 := by
  refine spelled_le_iff.2 ?_
  rintro _ rfl
  exact le_rfl

theorem spelled_mul_le (first : spelled groups words ≤ l) (second : spelled groups words' ≤ l') :
    spelled groups (words * words') ≤ l * l' := by
  refine spelled_le_iff.2 ?_
  rintro _ ⟨x, mem, y, mem', rfl⟩
  rw [Way.language_append]
  exact mul_le_mul' (spelled_le_iff.1 first x mem) (spelled_le_iff.1 second y mem')

theorem spelled_add_le (first : spelled groups words ≤ l) (second : spelled groups words' ≤ l') :
    spelled groups (words + words') ≤ l + l' := by
  rintro t ⟨x, mem | mem, reads⟩
  · exact Or.inl (first ⟨x, mem, reads⟩)
  · exact Or.inr (second ⟨x, mem, reads⟩)

theorem spelled_kstar_le (le : spelled groups words ≤ l) : spelled groups words∗ ≤ l∗ := by
  let good : Language Letter := {x | Way.language groups x ≤ l∗}
  have none : (1 : Language Letter) ≤ good := by
    rintro _ rfl
    exact (one_le_kstar : 1 ≤ l∗)
  have more : good * words ≤ good := by
    rintro _ ⟨x, mem, u, reads, rfl⟩
    show Way.language groups (x ++ u) ≤ l∗
    rw [Way.language_append]
    exact (mul_le_mul' mem (spelled_le_iff.1 le u reads)).trans (kstar_mul_le_kstar (a := l))
  refine spelled_le_iff.2 fun x mem => ?_
  exact mul_kstar_le none more (by rwa [one_mul] : x ∈ 1 * words∗)

theorem Quantifier.spelled_language_le (quantifier : Quantifier) (le : spelled groups words ≤ l) :
    spelled groups (quantifier.language words) ≤ quantifier.language l := by
  cases quantifier with
  | once => exact le
  | optional => exact spelled_add_le spelled_one le
  | oneOrMore => exact spelled_mul_le le (spelled_kstar_le le)
  | anyNumber => exact spelled_kstar_le le

variable {α : Type} {letters : α → Language Letter} {language : α → Language Char}

theorem spelled_languageOfBranch_le (pieces : List (Piece α))
    (le : ∀ piece ∈ pieces, spelled groups (letters piece.atom) ≤ language piece.atom) :
    spelled groups (languageOfBranch letters pieces) ≤ languageOfBranch language pieces := by
  induction pieces with
  | nil => exact spelled_one
  | cons piece pieces ih =>
    obtain ⟨first, others⟩ := List.forall_mem_cons.1 le
    exact spelled_mul_le (piece.quantifier.spelled_language_le first) (ih others)

theorem Branches.spelled_language_le (branches : Branches α)
    (le : ∀ branch ∈ branches, ∀ piece ∈ branch,
      spelled groups (letters piece.atom) ≤ language piece.atom) :
    spelled groups (branches.language letters) ≤ branches.language language := by
  induction branches with
  | nil =>
    rintro _ ⟨x, never, -⟩
    exact absurd never (Language.notMem_zero x)
  | cons branch branches ih =>
    obtain ⟨first, others⟩ := List.forall_mem_cons.1 le
    exact spelled_add_le (spelled_languageOfBranch_le branch first) (ih others)

end Spelled

/-! ## Patterns as ways -/

/-- What stands for what: the generation, and for each name which group it means and what it
reads. -/
structure Scope where
  generation : Nat
  ids : Text → Option GroupId
  reads : Text → Language Char

def Scope.letters (scope : Scope) : Atom → Language Letter
  | .char c => {[.char c]}
  | .oneOf items => {w | ∃ c, w = [.char c] ∧ ∃ item ∈ items, item.contains c}
  | .group source _ => {[.group (.inline source scope.generation) none]}
  | .reference label name => {w | ∃ id, scope.ids name = some id ∧ w = [.group id label]}

mutual

/-- What the groups of an atom read. A group in parentheses reads what is spelled by a way that is
joined, by the pieces inside, with a way of the inside. -/
def Atom.reads (scope : Scope) : Atom → GroupId → Language Char
  | .char _, _ | .oneOf _, _ => 0
  | .group source inner, id =>
    {t | id = .inline source scope.generation ∧ t ∈ spelled (readsOfInner scope inner)
      (joinedWith (Branches.spots scope.letters inner) (Branches.language scope.letters inner))}
  | .reference _ name, id => {t | scope.ids name = some id ∧ t ∈ scope.reads name}

def readsOfInner (scope : Scope) : List (List (Piece Atom)) → GroupId → Language Char
  | [], _ => 0
  | branch :: branches, id => readsOfPieces scope branch id + readsOfInner scope branches id

def readsOfPieces (scope : Scope) : List (Piece Atom) → GroupId → Language Char
  | [], _ => 0
  | ⟨atom, _⟩ :: pieces, id => atom.reads scope id + readsOfPieces scope pieces id

end

namespace Pattern

def words (scope : Scope) (pattern : Pattern) : Language Letter :=
  Branches.language scope.letters pattern

def spots (scope : Scope) (pattern : Pattern) : List Spot := Branches.spots scope.letters pattern

def reads (scope : Scope) (pattern : Pattern) : GroupId → Language Char :=
  readsOfInner scope pattern

def reading (scope : Scope) (pattern : Pattern) : Language Char :=
  spelled (pattern.reads scope) (joinedWith (pattern.spots scope) (pattern.words scope))

theorem mem_reads {scope : Scope} {pattern : Pattern} {id : GroupId} {t : Text} :
    t ∈ pattern.reads scope id ↔
      ∃ branch ∈ pattern, ∃ piece ∈ branch, t ∈ piece.atom.reads scope id := by
  have inside (pieces : List (Piece Atom)) : t ∈ readsOfPieces scope pieces id ↔
      ∃ piece ∈ pieces, t ∈ piece.atom.reads scope id := by
    induction pieces with
    | nil => simp [readsOfPieces, Language.notMem_zero]
    | cons piece pieces ih =>
      rw [readsOfPieces, Language.mem_add, ih]
      simp
  unfold reads
  induction pattern with
  | nil => simp [readsOfInner, Language.notMem_zero]
  | cons branch pattern ih =>
    rw [readsOfInner, Language.mem_add]
    exact (or_congr (inside branch) ih).trans (by simp)

/-- Every piece of the pattern is a character, read once. -/
def Literal (pattern : Pattern) : Prop :=
  ∀ branch ∈ pattern, ∀ piece ∈ branch, ∃ c, piece = ⟨.char c, .once⟩

theorem Literal.narrow {pattern : Pattern} {scope : Scope} {spot : Spot} (literal : pattern.Literal)
    (mem : spot ∈ pattern.spots scope) : spot.Narrow := by
  obtain ⟨branch, among, mem⟩ := List.mem_flatMap.1 mem
  refine narrow_spotsOfBranch (fun piece mem' => ?_) [] spot mem
  obtain ⟨c, rfl⟩ := literal branch among piece mem'
  exact ⟨rfl, .char c, rfl⟩

end Pattern

/-- The scope after a name has got the meaning of a pattern. Where it had another meaning, a new
generation starts. -/
def Scope.learn (scope : Scope) (name : Text) (pattern : Pattern) : Scope :=
  let generation := if (scope.ids name).isSome then scope.generation + 1 else scope.generation
  ⟨generation, Function.update scope.ids name (some (.named name generation)),
    Function.update scope.reads name (pattern.reading scope)⟩

end OpGrammar
