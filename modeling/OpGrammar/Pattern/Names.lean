import OpGrammar.Pattern.Basic

/-!
# Names in a pattern

The names that a pattern refers to, and whether it matches the empty text when it is known which of
its names do.
-/

namespace OpGrammar

mutual

def Atom.names : Atom → List Text
  | .char _ | .oneOf _ => []
  | .group _ inner => namesOfBranches inner
  | .reference _ name => [name]

/-- The names in some branches, from left to right. -/
def namesOfBranches : List (List (Piece Atom)) → List Text
  | [] => []
  | branch :: branches => namesOfBranch branch ++ namesOfBranches branches

def namesOfBranch : List (Piece Atom) → List Text
  | [] => []
  | ⟨atom, _⟩ :: pieces => atom.names ++ namesOfBranch pieces

end

/-- The names that a pattern refers to, from left to right. -/
def Pattern.names (pattern : Pattern) : List Text := namesOfBranches pattern

mutual

/-- Whether an atom matches the empty text, if the names for which `known` is true do. -/
def Atom.nullable (known : Text → Bool) : Atom → Bool
  | .char _ | .oneOf _ => false
  | .group _ inner => nullableBranches known inner
  | .reference _ name => known name

/-- Whether one of some branches matches the empty text. -/
def nullableBranches (known : Text → Bool) : List (List (Piece Atom)) → Bool
  | [] => false
  | branch :: branches => nullableBranch known branch || nullableBranches known branches

/-- Whether every piece of a branch matches the empty text. -/
def nullableBranch (known : Text → Bool) : List (Piece Atom) → Bool
  | [] => true
  | ⟨atom, quantifier⟩ :: pieces =>
    (quantifier.allowsNone || atom.nullable known) && nullableBranch known pieces

end

/-- Whether a pattern matches the empty text, if the names for which `known` is true do. -/
def Pattern.nullable (known : Text → Bool) (pattern : Pattern) : Bool :=
  nullableBranches known pattern

end OpGrammar
