import OpGrammar.Pattern.Reader

/-!
# Writing a pattern

The text of a pattern. A character gets a backslash exactly when it is a sign of the notation.
-/

namespace OpGrammar

def Quantifier.print : Quantifier → Text
  | .once => []
  | .optional => ['?']
  | .oneOrMore => ['+']
  | .anyNumber => ['*']

def printClassChar (c : Char) : Text := if c ∈ classSigns then ['\\', c] else [c]

def ClassItem.print : ClassItem → Text
  | .single c => printClassChar c
  | .range first last => printClassChar first ++ '-' :: printClassChar last

def printChar (c : Char) : Text := if c ∈ patternSigns then ['\\', c] else [c]

def printReference (label : Option Text) (name : Text) : Text :=
  match label with
  | none => name
  | some label => label ++ ':' :: name

mutual

def Atom.print : Atom → Text
  | .char c => printChar c
  | .oneOf items => '[' :: items.flatMap ClassItem.print ++ [']']
  | .group _ inner => '(' :: printBranches inner ++ [')']
  | .reference label name => '{' :: printReference label name ++ ['}']

/-- The text of some branches, with `|` between them. -/
def printBranches : List (List (Piece Atom)) → Text
  | [] => []
  | [branch] => printBranch branch
  | branch :: branches => printBranch branch ++ '|' :: printBranches branches

def printBranch : List (Piece Atom) → Text
  | [] => []
  | ⟨atom, quantifier⟩ :: pieces => atom.print ++ quantifier.print ++ printBranch pieces

end

def Pattern.print (pattern : Pattern) : Text := printBranches pattern

end OpGrammar
