import OpGrammar.Pattern.Basic
import OpGrammar.Pattern.Error

/-!
# Character classes

A class is read in two steps: the characters up to its closing bracket, then the items that they
form. `-` stands between the two ends of a range and nowhere else, unless a backslash is before it.
-/

namespace OpGrammar

/-- The characters that a backslash may stand before in a class. -/
def classSigns : List Char := ['-', '[', ']', '\\']

/-- A character of a class, with whether a backslash was before it. -/
structure ClassChar where
  char : Char
  escaped : Bool
  deriving DecidableEq, Repr

/-- Whether the character divides the ends of a range. -/
def ClassChar.isDash (c : ClassChar) : Bool := c.char == '-' && !c.escaped

/-- The characters of a class up to its closing bracket, and what follows it. The class starts
`opening`, which is reported when it is never closed. -/
def readClassChars (opening : Text) : Text → Except PatternError (List ClassChar × Text)
  | [] => .error (.unclosedBracket opening)
  | ']' :: rest => .ok ([], rest)
  | '\\' :: [] => .error (.unclosedBracket opening)
  | '\\' :: c :: rest =>
    if c ∈ classSigns then
      (readClassChars opening rest).map fun (chars, after) => (⟨c, true⟩ :: chars, after)
    else .error (.needlessEscape ('\\' :: c :: rest))
  | c :: rest => (readClassChars opening rest).map fun (chars, after) => (⟨c, false⟩ :: chars, after)

theorem exists_of_map_cons {read : Except PatternError (List ClassChar × Text)} {c : ClassChar}
    {chars : List ClassChar} {after : Text}
    (h : (read.map fun (chars, after) => (c :: chars, after)) = .ok (chars, after)) :
    ∃ chars', read = .ok (chars', after) ∧ chars = c :: chars' := by
  rcases read with e | ⟨chars', after'⟩
  · cases h
  · obtain ⟨rfl, rfl⟩ := Prod.mk.inj (Except.ok.inj h)
    exact ⟨chars', rfl, rfl⟩

theorem length_of_readClassChars {opening text : Text} {chars : List ClassChar} {after : Text}
    (h : readClassChars opening text = .ok (chars, after)) : after.length < text.length := by
  fun_induction readClassChars opening text generalizing chars after with
  | case1 | case3 | case5 => cases h
  | case2 rest =>
    obtain ⟨-, rfl⟩ := Prod.mk.inj (Except.ok.inj h)
    exact Nat.lt_succ_self _
  | case4 c rest _ ih =>
    obtain ⟨_, read, -⟩ := exists_of_map_cons h
    exact Nat.lt_succ_of_lt (Nat.lt_succ_of_lt (ih read))
  | case6 c rest _ _ _ ih =>
    obtain ⟨_, read, -⟩ := exists_of_map_cons h
    exact Nat.lt_succ_of_lt (ih read)

/-- The items that the characters of a class form. -/
def classItems (source : Text) : List ClassChar → Except PatternError (List ClassItem)
  | c :: d :: e :: rest =>
    if c.isDash then .error (.malformedClass source)
    else if !d.isDash then (classItems source (d :: e :: rest)).map (.single c.char :: ·)
    else if e.isDash then .error (.malformedClass source)
    else if e.char < c.char then .error (.invertedRange c.char e.char)
    else (classItems source rest).map (.range c.char e.char :: ·)
  | c :: rest =>
    if c.isDash then .error (.malformedClass source)
    else (classItems source rest).map (.single c.char :: ·)
  | [] => .ok []

/-- A class from the text after its opening bracket, and what follows it. -/
def readClass (rest : Text) : Except PatternError (List ClassItem × Text) := do
  let opening := '[' :: rest
  let (chars, after) ← readClassChars opening rest
  let source := opening.take (opening.length - after.length)
  if chars.isEmpty then throw (.malformedClass source)
  let items ← classItems source chars
  return (items, after)

theorem length_of_readClass {rest : Text} {items : List ClassItem} {after : Text}
    (h : readClass rest = .ok (items, after)) : after.length < rest.length := by
  simp only [readClass] at h
  cases hc : readClassChars ('[' :: rest) rest with
  | error e => simp [hc, bind, Except.bind] at h
  | ok read =>
    obtain ⟨chars, left⟩ := read
    simp only [hc, bind, Except.bind] at h
    split at h
    · cases h
    · split at h
      · cases h
      · obtain ⟨-, rfl⟩ := Prod.mk.inj (Except.ok.inj h)
        exact length_of_readClassChars hc

end OpGrammar
