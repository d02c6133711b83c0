import Mathlib.Computability.Language
import Mathlib.Order.CompletePartialOrder
import OpGrammar.Pattern.Names

/-!
# Languages of patterns

What a pattern describes, with no graph in sight: a choice of branches is a union, a row of pieces a
concatenation, and a quantifier says how often. A name has the language that it is given. What the
pieces read need not be characters.
-/

open scoped Computability

namespace OpGrammar

variable {σ : Type}

/-! ## Quantifiers -/

/-- What is read by an atom with the quantifier, when the atom alone reads `l`. -/
def Quantifier.language (l : Language σ) : Quantifier → Language σ
  | .once => l
  | .optional => 1 + l
  | .oneOrMore => l * l∗
  | .anyNumber => l∗

/-- What may follow the first time that an atom is read, by whether it may be read again. -/
def again (more : Bool) (l : Language σ) : Language σ := if more then l∗ else 1

theorem nil_mem_again (more : Bool) (l : Language σ) : [] ∈ again more l := by
  cases more
  · exact Language.nil_mem_one
  · exact Language.nil_mem_kstar l

theorem mem_mul_again (more : Bool) {past l : Language σ} {x : List σ} (mem : x ∈ past) :
    x ∈ past * again more l := by
  simpa using Language.append_mem_mul mem (nil_mem_again more l)

theorem mul_again_mul {past l : Language σ} {x u : List σ} (mem : x ∈ past * again true l)
    (reads : u ∈ l) : x ++ u ∈ past * again true l := by
  have more := Language.append_mem_mul mem reads
  rw [mul_assoc] at more
  exact mul_le_mul_right (kstar_mul_le_kstar (a := l)) past more

theorem Quantifier.language_eq (l : Language σ) (quantifier : Quantifier) :
    quantifier.language l =
      (if quantifier.allowsNone then 1 else 0) + l * again quantifier.allowsMore l := by
  cases quantifier with
  | once | optional | oneOrMore => simp [language, again, allowsNone, allowsMore]
  | anyNumber =>
    simp only [language, again, allowsNone, allowsMore, if_true]
    exact (Language.one_add_self_mul_kstar_eq_kstar l).symm

theorem mem_mul_again_iff {more : Bool} {past l : Language σ} {x : List σ} :
    x ∈ past * again more l ↔ x ∈ past ∨ more ∧ x ∈ past * l * again more l := by
  cases more with
  | false => simp [again]
  | true =>
    rw [mul_assoc, again, if_pos rfl]
    nth_rewrite 1 [← Language.one_add_self_mul_kstar_eq_kstar]
    rw [mul_add, mul_one, Language.mem_add]
    simp

theorem Quantifier.mem_mul_language (past l : Language σ) (quantifier : Quantifier) (x : List σ) :
    x ∈ past * quantifier.language l ↔
      quantifier.allowsNone ∧ x ∈ past ∨ x ∈ past * l * again quantifier.allowsMore l := by
  rw [language_eq, mul_add, ← mul_assoc, Language.mem_add]
  cases quantifier.allowsNone with
  | false => simp
  | true => simp

/-! ## Branches -/

section Branches

variable {α : Type}

/-- What a row of pieces reads, by what its atoms read. -/
def languageOfBranch (atom : α → Language σ) : List (Piece α) → Language σ
  | [] => 1
  | piece :: pieces => piece.quantifier.language (atom piece.atom) * languageOfBranch atom pieces

/-- What some branches read, by what their atoms read. -/
def Branches.language (atom : α → Language σ) : Branches α → Language σ
  | [] => 0
  | branch :: branches => languageOfBranch atom branch + Branches.language atom branches

end Branches

def classLanguage (items : List ClassItem) : Language Char :=
  {w | ∃ c, w = [c] ∧ ∃ item ∈ items, item.contains c}

theorem mem_classLanguage {items : List ClassItem} {w : Text} :
    w ∈ classLanguage items ↔ ∃ c, w = [c] ∧ ∃ item ∈ items, item.contains c := Iff.rfl

theorem classLanguage_single (c : Char) : classLanguage [.single c] = {[c]} := by
  ext w
  simp only [mem_classLanguage, ClassItem.contains, List.mem_singleton]
  constructor
  · rintro ⟨d, rfl, item, rfl, same⟩
    rw [beq_iff_eq.1 same]
    rfl
  · rintro rfl
    exact ⟨c, rfl, .single c, rfl, beq_self_eq_true c⟩

/-! ## Patterns -/

mutual

def Atom.language (names : Text → Language Char) : Atom → Language Char
  | .char c => {[c]}
  | .oneOf items => classLanguage items
  | .group _ inner => languageOfInner names inner
  | .reference _ name => names name

def languageOfInner (names : Text → Language Char) : List (List (Piece Atom)) → Language Char
  | [] => 0
  | branch :: branches => languageOfPieces names branch + languageOfInner names branches

def languageOfPieces (names : Text → Language Char) : List (Piece Atom) → Language Char
  | [] => 1
  | ⟨atom, quantifier⟩ :: pieces =>
    quantifier.language (atom.language names) * languageOfPieces names pieces

end

/-- What a pattern reads, by what the names read. -/
def Pattern.language (names : Text → Language Char) (pattern : Pattern) : Language Char :=
  Branches.language (Atom.language names) pattern

theorem languageOfPieces_eq (names : Text → Language Char) (pieces : List (Piece Atom)) :
    languageOfPieces names pieces = languageOfBranch (Atom.language names) pieces := by
  induction pieces with
  | nil => simp [languageOfPieces, languageOfBranch]
  | cons piece pieces ih => simp [languageOfPieces, languageOfBranch, ih]

theorem languageOfInner_eq (names : Text → Language Char) (inner : List (List (Piece Atom))) :
    languageOfInner names inner = Pattern.language names inner := by
  induction inner with
  | nil => simp [languageOfInner, Pattern.language, Branches.language]
  | cons branch branches ih =>
    rw [languageOfInner, ih, languageOfPieces_eq]
    rfl

@[simp] theorem Atom.language_group (names : Text → Language Char) (source : Text)
    (inner : Pattern) : (Atom.group source inner).language names = inner.language names := by
  rw [Atom.language, languageOfInner_eq]

def Atom.plain : Atom → Bool
  | .char _ | .oneOf _ => true
  | .group _ _ | .reference _ _ => false

/-- Whether the pattern has neither groups nor references. -/
def Pattern.plain (pattern : Pattern) : Bool := pattern.all (·.all (·.atom.plain))

end OpGrammar
