import OpGrammar.Text.Basic

/-!
# Patterns

A pattern describes texts: branches to choose from, each a row of pieces, each an atom with a
quantifier.
-/

namespace OpGrammar

/-- How often an atom is read. -/
inductive Quantifier where
  | once
  | optional
  | oneOrMore
  | anyNumber
  deriving DecidableEq, Repr

def Quantifier.allowsNone : Quantifier → Bool
  | .once | .oneOrMore => false
  | .optional | .anyNumber => true

def Quantifier.allowsMore : Quantifier → Bool
  | .once | .optional => false
  | .oneOrMore | .anyNumber => true

inductive ClassItem where
  | single (c : Char)
  | range (first last : Char)
  deriving DecidableEq, Repr

def ClassItem.contains : ClassItem → Char → Bool
  | .single d, c => c == d
  | .range first last, c => first ≤ c && c ≤ last

def charOf? (n : Nat) : Option Char :=
  if h : n.isValidChar then some (Char.ofNatAux n h) else none

theorem charOf?_eq_some {n : Nat} {c : Char} : charOf? n = some c ↔ c.toNat = n := by
  unfold charOf?
  constructor
  · intro h
    by_cases valid : n.isValidChar
    · rw [dif_pos valid] at h
      obtain rfl := Option.some.inj h
      rfl
    · rw [dif_neg valid] at h
      cases h
  · rintro rfl
    have valid : c.toNat.isValidChar := c.valid
    rw [dif_pos valid]
    rfl

/-- The characters that the item stands for, in ascending order. -/
def ClassItem.chars : ClassItem → List Char
  | .single c => [c]
  | .range first last =>
    (List.range' first.toNat (last.toNat + 1 - first.toNat)).filterMap charOf?

theorem ClassItem.mem_chars {item : ClassItem} {c : Char} :
    c ∈ item.chars ↔ item.contains c = true := by
  cases item with
  | single d => simp [chars, contains]
  | range first last =>
    simp only [chars, contains, List.mem_filterMap, List.mem_range'_1, charOf?_eq_some,
      Bool.and_eq_true, decide_eq_true_eq, Char.le_def, UInt32.le_iff_toNat_le]
    constructor
    · rintro ⟨n, bounds, rfl⟩
      simp only [Char.toNat] at bounds
      omega
    · rintro ⟨low, high⟩
      refine ⟨c.toNat, ?_, rfl⟩
      simp only [Char.toNat]
      omega

/-- An atom with how often it is read. -/
structure Piece (α : Type) where
  atom : α
  quantifier : Quantifier
  deriving DecidableEq, Repr

/-- Branches to choose from, each a row of pieces. -/
abbrev Branches (α : Type) := List (List (Piece α))

/-- What a piece reads. A group keeps the text that it was written as. -/
inductive Atom where
  | char (c : Char)
  | oneOf (items : List ClassItem)
  | group (source : Text) (inner : List (List (Piece Atom)))
  | reference (label : Option Text) (name : Text)

/-- A pattern as it is read from its text. -/
abbrev Pattern := Branches Atom

end OpGrammar
