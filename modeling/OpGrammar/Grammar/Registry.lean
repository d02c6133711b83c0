import Mathlib.Data.List.AList
import OpGrammar.Grammar.Basic

/-!
# Registries

A registry keeps what a grammar is made of in fields of their own. A cell may have any kind, a way to
start an expression and a way to follow one, whether they go together or not, and the numbers of the
patterns are in a map beside the cells. The checks before each change are what keeps it in order.
-/

namespace OpGrammar

/-- What the tokens of a cell stand for. -/
inductive Kind where
  | expression
  | aside (kind : Aside)
  deriving DecidableEq, Repr

/-- All that is registered for a pattern. -/
structure Cell (O : Type) where
  pattern : Text
  kind : Kind
  starter : Option (Starter O)
  follower : Option (Follower O)

namespace Cell

variable {O : Type}

def role (cell : Cell O) : Role O :=
  match cell.kind with
  | .expression => .expression cell.starter cell.follower
  | .aside kind => .aside kind

def symbol (cell : Cell O) : Symbol O := ⟨cell.pattern, cell.role⟩

/-- The cell with what is given put in place of what it has. -/
def attach (starter : Option (Starter O)) (follower : Option (Follower O)) (cell : Cell O) :
    Cell O :=
  { cell with starter := starter.or cell.starter, follower := follower.or cell.follower }

end Cell

/-- Cells by number, the numbers of their patterns, and the lexicon that finds the tokens. -/
structure Registry (O : Type) where
  cells : Array (Cell O)
  numbers : AList fun _ : Text => Nat
  lexicon : Lexicon Nat
  traced : Bool

namespace Registry

variable {O : Type}

def empty : Registry O := ⟨#[], ∅, Lexicon.empty, false⟩

/-- The grammar that parses with what is registered. -/
def grammar (registry : Registry O) : Grammar O :=
  ⟨registry.cells.map Cell.symbol, registry.lexicon, registry.traced⟩

def find? (registry : Registry O) (pattern : Text) : Option Nat := registry.numbers.lookup pattern

def cellOf? (registry : Registry O) (pattern : Text) : Option (Cell O) :=
  (registry.find? pattern).bind (registry.cells[·]?)

/-- A change of a registry. What was changed before a refusal stays changed. -/
abbrev Change (O α : Type) := EStateM RuleError (Registry O) α

def changeLexicon {α : Type} (change : EStateM LexiconError (Lexicon Nat) α) : Change O α :=
  fun registry =>
    match change registry.lexicon with
    | .ok a lexicon => .ok a { registry with lexicon }
    | .error e lexicon => .error (.refused e) { registry with lexicon }

/-- Refuses a pattern that has already what is about to be attached, or that stands aside. -/
def requireRoom (pattern : Text) (starts follows : Bool) : Change O Unit := do
  match (← get).cellOf? pattern with
  | none => return
  | some cell =>
    if (starts || follows) && cell.kind ≠ .expression then throw (.aside pattern)
    else if starts && cell.starter.isSome then throw (.starts pattern)
    else if follows && cell.follower.isSome then throw (.follows pattern)

/-- The number of a pattern, which gets a cell if it has none. What is given is put in its place
there, without a look at what it replaces. -/
def place (pattern : Text) (starter : Option (Starter O)) (follower : Option (Follower O)) :
    Change O Nat := do
  let registry ← get
  match registry.find? pattern with
  | some id =>
    modify fun registry =>
      { registry with cells := registry.cells.modify id (Cell.attach starter follower) }
    return id
  | none =>
    let id := registry.cells.size
    changeLexicon (Lexicon.insert pattern id)
    modify fun registry =>
      { registry with
        cells := registry.cells.push ⟨pattern, .expression, starter, follower⟩
        numbers := registry.numbers.insert pattern id }
    return id

/-- The number of a pattern, with what is given attached to it. -/
def register (pattern : Text) (starter : Option (Starter O)) (follower : Option (Follower O)) :
    Change O Nat := do
  requireRoom pattern starter.isSome follower.isSome
  place pattern starter follower

/-- Refuses a pattern whose tokens are in use, or stand aside for something else. -/
def requireUnused (pattern : Text) (kind : Aside) : Change O Unit := do
  match (← get).cellOf? pattern with
  | none => return
  | some cell =>
    if cell.starter.isSome then throw (.starts pattern)
    else if cell.follower.isSome then throw (.follows pattern)
    else if cell.kind ≠ .expression && cell.kind ≠ .aside kind then throw (.aside pattern)

def assign (pattern : Text) (kind : Aside) : Change O Unit := do
  requireUnused pattern kind
  let id ← register pattern none none
  modify fun registry =>
    { registry with cells := registry.cells.modify id ({ · with kind := .aside kind }) }

def attachStarter (pattern : Text) (starter : Starter O) : Change O Unit := do
  let _ ← register pattern (some starter) none

def attachFollower (pattern : Text) (follower : Follower O) : Change O Unit := do
  let _ ← register pattern none (some follower)

def add : Rule O → Change O Unit
  | .name name pattern => changeLexicon (Lexicon.setMeaning name pattern)
  | .operand pattern make => attachStarter pattern (.operand make)
  | .infixLeft pattern power combine => attachFollower pattern (.infixLeft power combine)
  | .infixRight pattern power combine => attachFollower pattern (.infixRight power combine)
  | .prefixOp pattern power apply => attachStarter pattern (.prefixOp power apply)
  | .postfixOp pattern power apply => attachFollower pattern (.postfixOp power apply)
  | .brackets opening closing wrap => do
    requireRoom opening true false
    let closing ← register closing none none
    attachStarter opening (.bracket closing wrap)
  | .separator pattern => assign pattern .separator
  | .ignored pattern => assign pattern .ignored

/-- The registry after a rule, also one that is refused. -/
def extend (registry : Registry O) (rule : Rule O) : Registry O :=
  match add rule registry with
  | .ok _ registry => registry
  | .error _ registry => registry

/-- The registry that some rules make, those left out that are refused. -/
def ofRules (rules : List (Rule O)) : Registry O := rules.foldl extend empty

end Registry

end OpGrammar
