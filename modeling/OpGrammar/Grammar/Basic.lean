import OpGrammar.Grammar.Symbol
import OpGrammar.Lexicon.Basic

/-!
# Operator grammars

A grammar is a list of symbols with a lexicon that finds their tokens. It is made of rules. A rule
that is refused changes no symbol, but one for brackets may add the symbol of the closing bracket
before it is refused.
-/

namespace OpGrammar

/-- Symbols by number, and the lexicon that gives each pattern the number of its symbol. -/
structure Grammar (O : Type) where
  symbols : Array (Symbol O)
  lexicon : Lexicon Nat
  /-- Whether parsing leaves a trace. -/
  traced : Bool

/-- What one rule adds to a grammar. -/
inductive Rule (O : Type) where
  /-- A name for use in later patterns. -/
  | name (name pattern : Text)
  /-- An operand, made from the text of its token. -/
  | operand (pattern : Text) (make : Text → O)
  | infixLeft (pattern : Text) (power : Power) (combine : O → O → O)
  | infixRight (pattern : Text) (power : Power) (combine : O → O → O)
  | prefixOp (pattern : Text) (power : Power) (apply : O → O)
  | postfixOp (pattern : Text) (power : Power) (apply : O → O)
  /-- Brackets around an expression. -/
  | brackets (opening closing : Text) (wrap : O → O)
  /-- Tokens that end a statement. -/
  | separator (pattern : Text)
  /-- Tokens that are skipped like white space. -/
  | ignored (pattern : Text)

inductive RuleError where
  /-- The lexicon refuses the pattern. -/
  | refused (error : LexiconError)
  /-- Tokens of the pattern start an expression already. -/
  | starts (pattern : Text)
  /-- Tokens of the pattern follow an expression already. -/
  | follows (pattern : Text)
  /-- Tokens of the pattern stand between expressions. -/
  | aside (pattern : Text)
  deriving DecidableEq, Repr

namespace RuleError

def title : RuleError → String
  | .refused error => error.title
  | .starts _ => "AlreadyDefinedNud"
  | .follows _ => "AlreadyDefinedLed"
  | .aside _ => "AlreadyDefinedRole"

def detail : RuleError → Text
  | .refused error => error.detail
  | .starts pattern => pattern
  | .follows pattern => pattern
  | .aside pattern => pattern ++ Text.ofString " is already a separator or ignored"

def message (e : RuleError) : String := e.title ++ ": " ++ String.ofList e.detail

end RuleError

namespace Grammar

variable {O : Type}

def empty : Grammar O := ⟨#[], Lexicon.empty, false⟩

def symbolId? (grammar : Grammar O) (pattern : Text) : Option Nat :=
  grammar.symbols.findIdx? (·.pattern == pattern)

def role? (grammar : Grammar O) (id : Nat) : Option (Role O) := grammar.symbols[id]?.map (·.role)

def roleOf? (grammar : Grammar O) (pattern : Text) : Option (Role O) :=
  (grammar.symbolId? pattern).bind grammar.role?

/-- A change of a grammar. What was changed before a refusal stays changed. -/
abbrev Change (O α : Type) := EStateM RuleError (Grammar O) α

def changeLexicon {α : Type} (change : EStateM LexiconError (Lexicon Nat) α) : Change O α :=
  fun grammar =>
    match change grammar.lexicon with
    | .ok a lexicon => .ok a { grammar with lexicon }
    | .error e lexicon => .error (.refused e) { grammar with lexicon }

/-- The number of the symbol with a pattern, which is added if there is none. -/
def addSymbol (pattern : Text) : Change O Nat := do
  let grammar ← get
  match grammar.symbolId? pattern with
  | some id => return id
  | none =>
    let id := grammar.symbols.size
    changeLexicon (Lexicon.insert pattern id)
    modify fun grammar =>
      { grammar with symbols := grammar.symbols.push ⟨pattern, .expression none none⟩ }
    return id

def setRole (id : Nat) (role : Role O) : Change O Unit :=
  modify fun grammar =>
    { grammar with symbols := grammar.symbols.modify id ({ · with role }) }

def requireNoStarter (pattern : Text) : Change O Unit := do
  match (← get).roleOf? pattern with
  | none | some (.expression none _) => return
  | some (.expression (some _) _) => throw (.starts pattern)
  | some (.aside _) => throw (.aside pattern)

def requireNoFollower (pattern : Text) : Change O Unit := do
  match (← get).roleOf? pattern with
  | none | some (.expression _ none) => return
  | some (.expression _ (some _)) => throw (.follows pattern)
  | some (.aside _) => throw (.aside pattern)

def addStarter (pattern : Text) (starter : Starter O) : Change O Unit := do
  requireNoStarter pattern
  let id ← addSymbol pattern
  setRole id (.expression (some starter) (((← get).role? id).bind Role.follower?))

def addFollower (pattern : Text) (follower : Follower O) : Change O Unit := do
  requireNoFollower pattern
  let id ← addSymbol pattern
  setRole id (.expression (((← get).role? id).bind Role.starter?) (some follower))

def requireAside (pattern : Text) (kind : Aside) : Change O Unit := do
  match (← get).roleOf? pattern with
  | none | some (.expression none none) => return
  | some (.expression (some _) _) => throw (.starts pattern)
  | some (.expression none (some _)) => throw (.follows pattern)
  | some (.aside kind') => if kind' ≠ kind then throw (.aside pattern)

def addAside (pattern : Text) (kind : Aside) : Change O Unit := do
  requireAside pattern kind
  setRole (← addSymbol pattern) (.aside kind)

def add : Rule O → Change O Unit
  | .name name pattern => changeLexicon (Lexicon.setMeaning name pattern)
  | .operand pattern make => addStarter pattern (.operand make)
  | .infixLeft pattern power combine => addFollower pattern (.infixLeft power combine)
  | .infixRight pattern power combine => addFollower pattern (.infixRight power combine)
  | .prefixOp pattern power apply => addStarter pattern (.prefixOp power apply)
  | .postfixOp pattern power apply => addFollower pattern (.postfixOp power apply)
  | .brackets opening closing wrap => do
    requireNoStarter opening
    let closing ← addSymbol closing
    addStarter opening (.bracket closing wrap)
  | .separator pattern => addAside pattern .separator
  | .ignored pattern => addAside pattern .ignored

/-- The grammar after a rule, also one that is refused. -/
def extend (grammar : Grammar O) (rule : Rule O) : Grammar O :=
  match add rule grammar with
  | .ok _ grammar => grammar
  | .error _ grammar => grammar

/-- The grammar that some rules make, those left out that are refused. -/
def ofRules (rules : List (Rule O)) : Grammar O := rules.foldl extend empty

end Grammar

end OpGrammar
