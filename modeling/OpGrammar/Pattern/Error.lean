import OpGrammar.Text.Basic

/-!
# Why a text is no pattern
-/

namespace OpGrammar

/-- What is wrong with the text of a pattern. The first fault from the left is reported. -/
inductive PatternError where
  /-- A bracket is never closed. Holds the text from the bracket on. -/
  | unclosedBracket (rest : Text)
  /-- A class is empty or has a `-` in the wrong place. Holds the class with its brackets. -/
  | malformedClass (source : Text)
  /-- A range ends before it starts. -/
  | invertedRange (first last : Char)
  /-- A backslash stands before a character that needs none. Holds the text from there on. -/
  | needlessEscape (rest : Text)
  /-- A reference is neither a name nor a label and a name. Holds what is between the braces. -/
  | malformedReference (reference : Text)
  deriving DecidableEq, Repr

namespace PatternError

def title : PatternError → String
  | .unclosedBracket _ => "UnclosedBracketInRegularExpression"
  | .malformedClass _ => "InvalidRangeSyntax"
  | .invertedRange _ _ => "InvalidRange"
  | .needlessEscape _ => "UnnecessaryEscapeInRegularExpression"
  | .malformedReference _ => "UnresolvableGroup"

def detail : PatternError → Text
  | .unclosedBracket rest => rest
  | .malformedClass source => source
  | .invertedRange first last => [first, ' ', '>', ' ', last]
  | .needlessEscape rest => rest
  | .malformedReference reference => reference

def message (e : PatternError) : String := e.title ++ ": " ++ String.ofList e.detail

end PatternError

end OpGrammar
