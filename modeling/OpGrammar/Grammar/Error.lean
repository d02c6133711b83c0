import OpGrammar.Text.Basic

/-!
# Why an input is not accepted
-/

namespace OpGrammar

inductive ParseError where
  /-- Nothing is known that the rest starts with. -/
  | unknownText (place : Nat) (rest : Text)
  /-- The token starts no expression. -/
  | startsNothing (token : Text) (place : Nat)
  /-- The token follows no expression. -/
  | followsNothing (token : Text) (place : Nat)
  /-- The input ends where an expression is to start. -/
  | inputEnds (place : Nat)
  /-- Something is left after the expression. -/
  | inputLeft (place : Nat) (rest : Text)
  /-- Nothing more of the input would ever be read. -/
  | noProgress (place : Nat)
  /-- A closing bracket is missing. Nothing is found at the end of the input. -/
  | expected (pattern found : Text) (place : Nat)
  deriving DecidableEq, Repr

namespace ParseError

def title : ParseError → String
  | .unknownText _ _ => "UnknownExpression"
  | .startsNothing _ _ => "MissingNud"
  | .followsNothing _ _ => "MissingLed"
  | .inputEnds _ => "UnexpectedEndOfInput"
  | .inputLeft _ _ => "TrailingInput"
  | .noProgress _ => "NoProgress"
  | .expected _ _ _ => "ExpectedToken"

def message (e : ParseError) : String :=
  let quote (text : Text) := "'" ++ String.ofList text ++ "'"
  e.title ++
    match e with
    | .unknownText place rest | .inputLeft place rest =>
      " at " ++ place.repr ++ ": " ++ String.ofList rest
    | .startsNothing token place =>
      ": " ++ quote token ++ " at " ++ place.repr ++ " cannot start an expression"
    | .followsNothing token place =>
      ": " ++ quote token ++ " at " ++ place.repr ++ " cannot follow an expression"
    | .inputEnds place | .noProgress place => " at " ++ place.repr
    | .expected pattern found place =>
      " " ++ quote pattern ++ " at " ++ place.repr ++ ", found " ++ quote found

end ParseError

end OpGrammar
