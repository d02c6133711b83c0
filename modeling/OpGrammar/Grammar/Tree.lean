import OpGrammar.Grammar.Token

/-!
# Syntax trees

A tree says how the tokens of an expression belong together, and has the value that the operators
give it.
-/

namespace OpGrammar

/-- An expression. An operator is kept with the power that it reads its right operand with. -/
inductive Tree (O : Type) where
  | operand (token : Token) (make : Text → O)
  | prefixOp (token : Token) (power : Power) (apply : O → O) (inner : Tree O)
  | bracket (opening closing : Token) (wrap : O → O) (inner : Tree O)
  | infixOp (token : Token) (power : Power) (combine : O → O → O) (left right : Tree O)
  | postfixOp (token : Token) (apply : O → O) (inner : Tree O)

namespace Tree

variable {O : Type}

def value : Tree O → O
  | .operand token make => make token.text
  | .prefixOp _ _ apply inner => apply inner.value
  | .bracket _ _ wrap inner => wrap inner.value
  | .infixOp _ _ combine left right => combine left.value right.value
  | .postfixOp _ apply inner => apply inner.value

/-- The tokens of an expression, from left to right. -/
def tokens : Tree O → List Token
  | .operand token _ => [token]
  | .prefixOp token _ _ inner => token :: inner.tokens
  | .bracket opening closing _ inner => opening :: inner.tokens ++ [closing]
  | .infixOp token _ _ left right => left.tokens ++ token :: right.tokens
  | .postfixOp token _ inner => inner.tokens ++ [token]

theorem tokens_ne_nil (tree : Tree O) : tree.tokens ≠ [] := by
  cases tree <;> simp [tokens]

end Tree

end OpGrammar
