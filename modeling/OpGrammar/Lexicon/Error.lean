import OpGrammar.Pattern.Error

/-!
# Why a lexicon refuses a pattern
-/

namespace OpGrammar

/-- Why a pattern, or a meaning for a name, is refused. -/
inductive LexiconError where
  /-- The text is no pattern. -/
  | malformed (error : PatternError)
  /-- The pattern is there already, or it matches the empty text. -/
  | redundant (pattern : Text)
  /-- The pattern refers to a name without a meaning. -/
  | unknownName (name : Text)
  /-- What should get a meaning is no name. -/
  | malformedName (name : Text)
  deriving DecidableEq, Repr

namespace LexiconError

def title : LexiconError → String
  | .malformed error => error.title
  | .redundant _ => "TautologyInRegularExpression"
  | .unknownName _ => "UnknownNamedGroupInRegularExpression"
  | .malformedName _ => "UnresolvableGroup"

def detail : LexiconError → Text
  | .malformed error => error.detail
  | .redundant pattern => pattern
  | .unknownName name => name
  | .malformedName name => name

def message (e : LexiconError) : String := e.title ++ ": " ++ String.ofList e.detail

end LexiconError

end OpGrammar
