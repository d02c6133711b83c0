import OpGrammar.Text.Basic
import OpGrammar.Text.Alphabetic
import OpGrammar.Text.Numeric

/-!
# Names

A name is made of letters and numbers of any script and of low lines. No sign of the pattern
notation is among them, so a name can stand between signs without any escape.
-/

namespace OpGrammar

def isNameChar (c : Char) : Bool := isAlphabetic c || isNumeric c || c == '_'

def isName (text : Text) : Bool := !text.isEmpty && text.all isNameChar

theorem isName_eq_true_iff {text : Text} :
    isName text = true ↔ text ≠ [] ∧ ∀ c ∈ text, isNameChar c = true := by
  simp [isName]

theorem isNameChar_colon_brace : isNameChar ':' = false ∧ isNameChar '}' = false := by
  decide +kernel

theorem not_mem_of_isName {text : Text} {c : Char} (h : isName text = true)
    (hc : isNameChar c = false) : c ∉ text := by
  intro mem
  have := (isName_eq_true_iff.1 h).2 c mem
  simp [hc] at this

end OpGrammar
