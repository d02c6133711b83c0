import OpGrammar.Pattern.Class
import OpGrammar.Text.Name

/-!
# Reading a pattern

The branches of a pattern are divided by `|`. A piece is an atom and the `?`, `+` or `*` right
after it. An atom is a pattern in parentheses, a class in brackets, a reference in braces, a sign
after a backslash, or any other character. Outside of a group `)` is a character like any other,
and so is a quantifier with no atom before it.
-/

namespace OpGrammar

/-- What is left of a text when something has been read. -/
abbrev Remainder (text : Text) := { rest : Text // rest.length ≤ text.length }

/-- The signs of the notation, which need a backslash to stand for themselves. -/
def patternSigns : List Char := ['|', '*', '+', '?', '\\', '{', '}', '(', ')', '[', ']']

/-- The quantifier that a text starts with, and what follows it. -/
def readQuantifier : (text : Text) → Quantifier × Remainder text
  | '?' :: rest => (.optional, ⟨rest, by simp⟩)
  | '+' :: rest => (.oneOrMore, ⟨rest, by simp⟩)
  | '*' :: rest => (.anyNumber, ⟨rest, by simp⟩)
  | text => (.once, ⟨text, Nat.le_refl _⟩)

def readEscaped : (rest : Text) → Except PatternError (Atom × Remainder rest)
  | [] => .error (.needlessEscape ['\\'])
  | c :: rest =>
    if c ∈ patternSigns then .ok (.char c, ⟨rest, by simp⟩)
    else .error (.needlessEscape ('\\' :: c :: rest))

/-- A reference by what is between its braces: `name` or `label:name`. -/
def referenceOf (reference : Text) : Except PatternError Atom :=
  match reference.dropWhile (· != ':') with
  | [] =>
    if isName reference then .ok (.reference none reference)
    else .error (.malformedReference reference)
  | _ :: name =>
    let label := reference.takeWhile (· != ':')
    if isName label && isName name then .ok (.reference (some label) name)
    else .error (.malformedReference reference)

/-- A reference from the text after its opening brace. -/
def readReference (rest : Text) : Except PatternError (Atom × Remainder rest) :=
  match h : rest.dropWhile (· != '}') with
  | [] => .error (.unclosedBracket ('{' :: rest))
  | _ :: after => do
    let atom ← referenceOf (rest.takeWhile (· != '}'))
    return (atom, ⟨after, by
      have shorter := (List.dropWhile_sublist (· != '}') : (rest.dropWhile _).Sublist rest).length_le
      rw [h] at shorter
      exact Nat.le_of_succ_le shorter⟩)

/-- An atom other than a group, by its first character and the text after that. -/
def readAtom (first : Char) (rest : Text) : Except PatternError (Atom × Remainder rest) :=
  match first with
  | '[' =>
    match h : readClass rest with
    | .error e => .error e
    | .ok (items, after) => .ok (.oneOf items, ⟨after, Nat.le_of_lt (length_of_readClass h)⟩)
  | '{' => readReference rest
  | '\\' => readEscaped rest
  | c => .ok (.char c, ⟨rest, Nat.le_refl _⟩)

/-- The branches with one more piece in front of the first. -/
def Branches.consPiece {α : Type} (piece : Piece α) : Branches α → Branches α
  | [] => [[piece]]
  | branch :: branches => (piece :: branch) :: branches

/-- The branches that a text starts with. Those of a group end at its closing parenthesis, those
of a whole pattern at the end of the text. -/
def readBranches (inGroup : Bool) (text : Text) :
    Except PatternError (Pattern × Remainder text) :=
  match text with
  | [] => .ok ([[]], ⟨[], Nat.le_refl _⟩)
  | '|' :: rest => do
    let (branches, ⟨after, short⟩) ← readBranches inGroup rest
    return ([] :: branches, ⟨after, Nat.le_succ_of_le short⟩)
  | c :: rest =>
    if inGroup && c == ')' then .ok ([[]], ⟨c :: rest, Nat.le_refl _⟩)
    else do
      let (atom, ⟨left, short⟩) ← (
        if c = '(' then do
          let (inner, ⟨left, short⟩) ← readBranches true rest
          match left, short with
          | [], _ => .error (.unclosedBracket (c :: rest))
          | _ :: after, short =>
            let source := rest.take (rest.length - left.length)
            return (.group source inner, ⟨after, Nat.le_of_succ_le short⟩)
        else readAtom c rest : Except PatternError (Atom × Remainder rest))
      let (quantifier, ⟨left', short'⟩) := readQuantifier left
      let (branches, ⟨after, short''⟩) ← readBranches inGroup left'
      return (branches.consPiece ⟨atom, quantifier⟩, ⟨after,
        Nat.le_succ_of_le (Nat.le_trans short'' (Nat.le_trans short' short))⟩)
termination_by text.length

def Pattern.read (text : Text) : Except PatternError Pattern :=
  (readBranches false text).map (·.1)

end OpGrammar
