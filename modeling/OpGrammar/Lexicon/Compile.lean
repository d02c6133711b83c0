import OpGrammar.Lexicon.Growth
import OpGrammar.Lexicon.Error
import OpGrammar.Pattern.Names

/-!
# From atoms to links

An atom becomes a link when its names get the meanings that they have now. A group in parentheses is
made once in a generation and used again wherever the same text stands, which is how two patterns
come to share the way after it.
-/

namespace OpGrammar

structure Meanings where
  /-- The group of each name. -/
  groups : List (Text × Group)
  /-- How often a name got a new meaning in place of an old one. -/
  generation : Nat

namespace Meanings

def none : Meanings := ⟨[], 0⟩

def group? (meanings : Meanings) (name : Text) : Option Group := meanings.groups.lookup name

def knows (meanings : Meanings) (name : Text) : Bool := (meanings.group? name).isSome

/-- Whether a name means a group that matches the empty text. -/
def nullable (meanings : Meanings) (name : Text) : Bool :=
  (meanings.group? name).any Group.nullable

end Meanings

/-- The groups in parentheses that were made in this generation, by their texts. -/
abbrev InlineGroups := List (Text × Group)

mutual

def Atom.link (meanings : Meanings) : Atom → EStateM LexiconError InlineGroups Link
  | .char c => pure (.chars [.single c])
  | .oneOf items => pure (.chars items)
  | .group source inner => do
    match (← get).lookup source with
    | some group => return .group group none
    | none =>
      let branches ← linksOfBranches meanings inner
      let group := Group.ofBranches (.inline source meanings.generation) branches
      modify ((source, group) :: ·)
      return .group group none
  | .reference label name =>
    match meanings.group? name with
    | some group => return .group group label
    | none => throw (.unknownName name)

def linksOfBranches (meanings : Meanings) :
    List (List (Piece Atom)) → EStateM LexiconError InlineGroups (Branches Link)
  | [] => pure []
  | branch :: branches => do
    let links ← linksOfBranch meanings branch
    return links :: (← linksOfBranches meanings branches)

def linksOfBranch (meanings : Meanings) :
    List (Piece Atom) → EStateM LexiconError InlineGroups (List (Piece Link))
  | [] => pure []
  | ⟨atom, quantifier⟩ :: pieces => do
    let link ← atom.link meanings
    return ⟨link, quantifier⟩ :: (← linksOfBranch meanings pieces)

end

def Pattern.links (pattern : Pattern) (meanings : Meanings) :
    EStateM LexiconError InlineGroups (Branches Link) :=
  linksOfBranches meanings pattern

end OpGrammar
