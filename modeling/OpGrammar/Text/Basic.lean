/-!
# Text

Patterns, names and inputs are lists of characters. Places in them are counted in bytes of UTF-8,
and `dropBytes_byteSize_append` says that the place after a piece of text leads to what follows it.
-/

namespace OpGrammar

/-- Patterns, names and inputs. -/
abbrev Text := List Char

namespace Text

def ofString (s : String) : Text := s.toList

def byteSize : Text → Nat
  | [] => 0
  | c :: text => c.utf8Size + byteSize text

/-- The text from a byte place on, or from the next character if the place is inside one. -/
def dropBytes : Nat → Text → Text
  | 0, text => text
  | _ + 1, [] => []
  | n + 1, c :: rest => dropBytes (n + 1 - c.utf8Size) rest

@[simp]
theorem byteSize_nil : byteSize [] = 0 := rfl

@[simp]
theorem byteSize_cons (c : Char) (text : Text) :
    byteSize (c :: text) = c.utf8Size + byteSize text := rfl

@[simp]
theorem byteSize_append (a b : Text) : byteSize (a ++ b) = byteSize a + byteSize b := by
  induction a with
  | nil => simp
  | cons c a ih => simp [ih, Nat.add_assoc]

@[simp]
theorem dropBytes_zero (text : Text) : dropBytes 0 text = text := by
  cases text <;> rfl

theorem dropBytes_byteSize_append (a b : Text) : dropBytes (byteSize a) (a ++ b) = b := by
  induction a with
  | nil => simp
  | cons c a ih =>
    have pos := Char.utf8Size_pos c
    obtain ⟨n, hn⟩ : ∃ n, byteSize (c :: a) = n + 1 := ⟨c.utf8Size + byteSize a - 1, by simp; omega⟩
    have rest : n + 1 - c.utf8Size = byteSize a := by simp at hn; omega
    rw [hn, List.cons_append, dropBytes, rest, ih]

end Text

end OpGrammar
