import OpGrammar.Text.Basic
import OpGrammar.Text.Printable

/-!
# Quoted text

Text in double quotes as a trace shows it: what cannot be seen is written as an escape, so that two
different texts never look the same.
-/

namespace OpGrammar.Text

/-- A character by its code point, in lowercase hexadecimal digits. -/
def escapedCode (c : Char) : Text := ['\\', 'u', '{'] ++ Nat.toDigits 16 c.toNat ++ ['}']

def escaped (c : Char) : Text :=
  if c = '\x00' then ['\\', '0']
  else if c = '\t' then ['\\', 't']
  else if c = '\r' then ['\\', 'r']
  else if c = '\n' then ['\\', 'n']
  else if c = '\\' ∨ c = '"' then ['\\', c]
  else if isPrintable c then [c]
  else escapedCode c

def quoted (text : Text) : Text := '"' :: text.flatMap escaped ++ ['"']

end OpGrammar.Text
