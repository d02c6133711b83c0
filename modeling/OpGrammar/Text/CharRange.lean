/-!
# Ranges of characters

A property of characters is given by the ranges of code points that have it, in ascending order.
-/

namespace OpGrammar

/-- First and last code point of each range, in ascending order. -/
abbrev CharRanges := List (Nat × Nat)

/-- Whether a code point is in one of the ranges. -/
def CharRanges.contains : CharRanges → Nat → Bool
  | [], _ => false
  | (first, last) :: rest, n => !(n < first) && (n ≤ last || contains rest n)

end OpGrammar
