import OpGrammar.Grammar.Parse

/-!
# Formulas

Formulas in ASCII are turned into Unicode text: `alpha^2 != -1` into `α² ≠ −1`.
-/

namespace OpGrammar.Formula

/-- The names of Greek letters, with the letters. -/
def greekLetters : List (String × String) :=
  [("alpha", "α"), ("beta", "β"), ("chi", "χ"), ("delta", "δ"), ("Delta", "Δ"),
    ("eps(ilon)?", "ε"), ("eta", "η"), ("gamma", "γ"), ("Gamma", "Γ"), ("iota", "ι"),
    ("kappa", "κ"), ("lambda", "λ"), ("Lambda", "Λ"), ("mu", "μ"), ("nu", "ν"), ("omega", "ω"),
    ("Omega", "Ω"), ("phi", "φ"), ("Phi", "Φ"), ("pi", "π"), ("Pi", "Π"), ("psi", "ψ"),
    ("Psi", "Ψ"), ("rho", "ρ"), ("sigma", "σ"), ("Sigma", "Σ"), ("tau", "τ"), ("theta", "ϑ"),
    ("Theta", "Θ"), ("upsilon", "υ"), ("xi", "ξ"), ("Xi", "Ξ"), ("zeta", "ζ")]

def relations : List (String × String) :=
  [("=", "="), ("!=", "≠"), ("<", "<"), (">", ">"), ("<=", "≤"), (">=", "≥"), ("->", "→"),
    ("=>", "⇒")]

/-- The sign raised to the height of an exponent. -/
def raised? : Char → Option Char
  | '0' => some '⁰'
  | '1' => some '¹'
  | '2' => some '²'
  | '3' => some '³'
  | '4' => some '⁴'
  | '5' => some '⁵'
  | '6' => some '⁶'
  | '7' => some '⁷'
  | '8' => some '⁸'
  | '9' => some '⁹'
  | '+' => some '⁺'
  | '−' => some '⁻'
  | '=' => some '⁼'
  | 'i' => some 'ⁱ'
  | 'n' => some 'ⁿ'
  | _ => none

/-- A power. The exponent is raised if all of its characters can be. -/
def power (base exponent : Text) : Text :=
  match exponent.mapM raised? with
  | some raised => base ++ raised
  | none => base ++ '^' :: exponent

/-- Two operands with a sign and spaces between them. -/
def spaced (sign : String) (left right : Text) : Text :=
  left ++ ' ' :: sign.toList ++ ' ' :: right

def tight (sign : String) (left right : Text) : Text := left ++ sign.toList ++ right

def operandRules : List (Rule Text) :=
  greekLetters.map (fun (name, letter) => .operand name.toList fun _ => letter.toList) ++
    [.name "DIGIT".toList "[0-9]".toList,
      .operand "\x7bDIGIT\x7d+(.\x7bDIGIT\x7d+)?".toList id,
      .operand "[a-zA-Z]".toList id,
      .operand "oo|inf(inity)?".toList fun _ => ['∞']]

def operatorRules : List (Rule Text) :=
  relations.map (fun (name, sign) => .infixLeft name.toList 5 (spaced sign)) ++
    [.infixLeft ['+'] 10 (spaced "+"),
      .infixLeft ['-'] 10 (spaced "−"),
      .infixLeft ['\\', '*'] 20 (spaced "⋅"),
      .infixLeft ['\\', '*', '\\', '*'] 20 (spaced "∗"),
      .infixLeft ['/'] 20 (spaced "/"),
      .infixLeft ['/', '/'] 20 (tight "/"),
      .infixRight ['^'] 30 power,
      .prefixOp ['-'] 40 ('−' :: ·),
      .postfixOp ['!'] 50 (· ++ ['!']),
      .brackets ['\\', '('] ['\\', ')'] fun inner => '(' :: inner ++ [')']]

/-- The grammar of formulas. -/
def grammar : Grammar Text := Grammar.ofRules (operandRules ++ operatorRules)

/-- The texts of the statements, with spaces between them. -/
def joinStatements (statements : List Text) : Text := statements.intersperse [' '] |>.flatten

/-- Turns the formulas of an input into text by a grammar. -/
def convertBy (grammar : Grammar Text) (input : Text) : Run Text :=
  joinStatements <$> grammar.parseAll input

def convert (input : Text) : Run Text := convertBy grammar input

end OpGrammar.Formula
