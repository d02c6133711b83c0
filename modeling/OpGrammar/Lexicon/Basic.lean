import OpGrammar.Lexicon.Compile
import OpGrammar.Lexicon.Group
import OpGrammar.Pattern.Reader

/-!
# Lexicons

A lexicon holds patterns with values and reads the start of a text by them. Patterns may refer to
names that were given a meaning before; a later meaning of a name changes no earlier pattern.
-/

namespace OpGrammar

/-- Patterns with values, and what names mean. -/
structure Lexicon (ν : Type) where
  graph : Graph Group ν
  meanings : Meanings
  inlineGroups : InlineGroups
  /-- The patterns in the graph. -/
  patterns : List Text

/-- What can be entered into a lexicon. -/
inductive Entry (ν : Type) where
  /-- A name gets the meaning of a pattern. -/
  | meaning (name pattern : Text)
  /-- A pattern with its value. -/
  | pattern (text : Text) (value : ν)
  deriving DecidableEq, Repr

/-- A labelled part of a match, with its place in bytes. -/
structure Capture where
  label : Text
  text : Text
  start : Nat
  stop : Nat
  deriving DecidableEq, Repr

structure Match (ν : Type) where
  text : Text
  value : ν
  captures : List Capture
  deriving DecidableEq, Repr

def Span.capture (text : Text) (span : Span) : Capture where
  label := span.label
  text := (text.take span.stop).drop span.start
  start := Text.byteSize (text.take span.start)
  stop := Text.byteSize (text.take span.stop)

def Found.toMatch {ν : Type} (text : Text) (found : Found ν) : Match ν where
  text := text.take found.length
  value := found.value
  captures := found.spans.map (·.capture text)

namespace Lexicon

variable {ν : Type}

def empty : Lexicon ν := ⟨Graph.empty, Meanings.none, [], []⟩

def knows (lexicon : Lexicon ν) (name : Text) : Bool := lexicon.meanings.knows name

/-- The longest start of a text that a walk through the patterns reads. -/
def longest? (lexicon : Lexicon ν) (text : Text) : Option (Match ν) :=
  (lexicon.graph.walk Group.run [0] 0 text).map (·.toMatch text)

def readPattern (text : Text) : EStateM LexiconError (Lexicon ν) Pattern :=
  match Pattern.read text with
  | .ok pattern => pure pattern
  | .error e => throw (.malformed e)

/-- The links of a pattern. The groups made on the way are kept, also when a name is unknown. -/
def links (pattern : Pattern) : EStateM LexiconError (Lexicon ν) (Branches Link) :=
  fun lexicon =>
    match pattern.links lexicon.meanings lexicon.inlineGroups with
    | .ok branches groups => .ok branches { lexicon with inlineGroups := groups }
    | .error e groups => .error e { lexicon with inlineGroups := groups }

/-- Gives a name the meaning of a pattern, for the patterns that come later. When the name had
another meaning, a new generation starts: the groups in parentheses may have used the old one. -/
def setMeaning (name pattern : Text) : EStateM LexiconError (Lexicon ν) Unit := do
  if !isName name then throw (.malformedName name)
  let branches ← links (← readPattern pattern)
  modify fun lexicon =>
    let { groups, generation } := lexicon.meanings
    if lexicon.knows name then
      let group := Group.ofBranches (.named name (generation + 1)) branches
      { lexicon with meanings := ⟨(name, group) :: groups, generation + 1⟩, inlineGroups := [] }
    else
      let group := Group.ofBranches (.named name generation) branches
      { lexicon with meanings := ⟨(name, group) :: groups, generation⟩ }

/-- Adds a pattern with its value. Where an earlier pattern ends, its value stays. -/
def insert (text : Text) (value : ν) : EStateM LexiconError (Lexicon ν) Unit := do
  if text ∈ (← get).patterns then throw (.redundant text)
  let pattern ← readPattern text
  let { meanings, .. } ← get
  if let some name := pattern.names.find? (!meanings.knows ·) then throw (.unknownName name)
  if pattern.nullable meanings.nullable then throw (.redundant text)
  let branches ← links pattern
  modify fun lexicon =>
    { lexicon with
      graph := lexicon.graph.addPattern branches value
      patterns := text :: lexicon.patterns }

def enter : Entry ν → EStateM LexiconError (Lexicon ν) Unit
  | .meaning name pattern => setMeaning name pattern
  | .pattern text value => insert text value

/-- The lexicon after an entry, also one that is refused. -/
def extend (lexicon : Lexicon ν) (entry : Entry ν) : Lexicon ν :=
  match enter entry lexicon with
  | .ok _ lexicon => lexicon
  | .error _ lexicon => lexicon

/-- The lexicon that some entries make, those left out that are refused. -/
def ofEntries (entries : List (Entry ν)) : Lexicon ν := entries.foldl extend empty

end Lexicon

end OpGrammar
