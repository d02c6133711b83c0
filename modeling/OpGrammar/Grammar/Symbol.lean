import OpGrammar.Text.Basic

/-!
# Symbols

A symbol is what a token can be: it may start an expression, follow one, or both, and the powers
of its operators say how tightly they hold what stands beside them. Results are of some type `O`.
-/

namespace OpGrammar

/-- How tightly an operator binds. -/
abbrev Power := Int32

/-- How a token starts an expression. -/
inductive Starter (O : Type) where
  /-- It is an operand by itself. -/
  | operand (make : Text → O)
  /-- It takes the expression after it that binds tighter than `power`. -/
  | prefixOp (power : Power) (apply : O → O)
  /-- It takes the expression up to a token of the symbol `closing`. -/
  | bracket (closing : Nat) (wrap : O → O)

/-- How a token follows an expression. -/
inductive Follower (O : Type) where
  /-- An operator between two expressions, grouped to the left among its equals. -/
  | infixLeft (power : Power) (combine : O → O → O)
  /-- An operator between two expressions, grouped to the right among its equals. -/
  | infixRight (power : Power) (combine : O → O → O)
  /-- An operator after its expression. -/
  | postfixOp (power : Power) (apply : O → O)

/-- How tightly the token binds to the expression that it follows. -/
def Follower.power {O : Type} : Follower O → Power
  | .infixLeft power _ | .infixRight power _ | .postfixOp power _ => power

/-- What a token is for that stands between expressions. -/
inductive Aside where
  /-- It ends a statement. -/
  | separator
  /-- It is skipped like white space. -/
  | ignored
  deriving DecidableEq, Repr

/-- What the tokens of a symbol are for. -/
inductive Role (O : Type) where
  | expression (starter : Option (Starter O)) (follower : Option (Follower O))
  | aside (kind : Aside)

namespace Role

variable {O : Type}

/-- How a token in this role starts an expression. -/
def starter? : Role O → Option (Starter O)
  | .expression starter _ => starter
  | .aside _ => none

/-- How a token in this role follows an expression. -/
def follower? : Role O → Option (Follower O)
  | .expression _ follower => follower
  | .aside _ => none

/-- How tightly a token in this role binds to what is before it. One that follows nothing binds like
its prefix operator, so that it is found missing as a follower where that one would bind. -/
def power : Role O → Power
  | .expression _ (some follower) => follower.power
  | .expression (some (.prefixOp power _)) none => power
  | _ => 0

end Role

/-- A symbol with the pattern of its tokens. -/
structure Symbol (O : Type) where
  pattern : Text
  role : Role O

end OpGrammar
