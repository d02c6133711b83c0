import OpGrammar.Pattern.Printer
import OpGrammar.Proofs.Reading

/-!
# A pattern is read as it is written

The signs of the notation mean different things in different places: a quantifier needs an atom
before it, a closing parenthesis a group around it, a dash the ends of a range beside it. A written
atom can be told from all that may stand behind it, so reading gives back what was written.
-/

namespace OpGrammar

/-! ## Characters of a class -/

def ClassChar.of (c : Char) : ClassChar := ⟨c, decide (c ∈ classSigns)⟩

@[simp] theorem ClassChar.char_of (c : Char) : (of c).char = c := rfl

@[simp]
theorem ClassChar.isDash_of (c : Char) : (of c).isDash = false := by
  by_cases dash : c = '-'
  · subst dash
    rfl
  · simp [isDash, of, dash]

def ClassChar.dash : ClassChar := ⟨'-', false⟩

@[simp] theorem ClassChar.isDash_dash : dash.isDash = true := rfl

def ClassItem.written : ClassItem → List ClassChar
  | .single c => [.of c]
  | .range first last => [.of first, .dash, .of last]

def ClassItem.Ordered : ClassItem → Prop
  | .single _ => True
  | .range first last => first ≤ last

theorem readClassChars_plain {opening rest : Text} {c : Char} (closing : c ≠ ']') (escape : c ≠ '\\') :
    readClassChars opening (c :: rest) =
      (readClassChars opening rest).map fun (chars, after) => (⟨c, false⟩ :: chars, after) := by
  rw [readClassChars]
  · exact closing
  · exact fun same => absurd same escape
  · exact fun _ _ same => absurd same escape

theorem readClassChars_print (opening rest : Text) (c : Char) :
    readClassChars opening (printClassChar c ++ rest) =
      (readClassChars opening rest).map fun (chars, after) => (.of c :: chars, after) := by
  unfold printClassChar
  by_cases sign : c ∈ classSigns
  · simp [readClassChars, ClassChar.of, sign]
  · have closing : c ≠ ']' := fun same => sign (by simp [same, classSigns])
    have escape : c ≠ '\\' := fun same => sign (by simp [same, classSigns])
    simp [readClassChars_plain closing escape, ClassChar.of, sign]

theorem readClassChars_items (opening after : Text) (items : List ClassItem) :
    readClassChars opening (items.flatMap ClassItem.print ++ ']' :: after) =
      .ok (items.flatMap ClassItem.written, after) := by
  induction items with
  | nil => simp [readClassChars]
  | cons item items ih =>
    cases item with
    | single c => simp [ClassItem.print, ClassItem.written, readClassChars_print, ih, Except.map]
    | range first last =>
      have dash (rest : Text) := @readClassChars_plain opening rest '-' (by decide) (by decide)
      simp [ClassItem.print, ClassItem.written, readClassChars_print, dash, ih, Except.map,
        ClassChar.dash]

theorem classItems_single (source : Text) {c : ClassChar} (plain : c.isDash = false)
    {rest : List ClassChar} (alone : ∀ d ∈ rest.head?, d.isDash = false) :
    classItems source (c :: rest) = (classItems source rest).map (.single c.char :: ·) := by
  rcases rest with _ | ⟨d, _ | ⟨e, rest⟩⟩
  · simp [classItems, plain]
  · simp [classItems, plain]
  · simp [classItems, plain, alone d rfl]

theorem classItems_written (source : Text) {items : List ClassItem}
    (ordered : ∀ item ∈ items, item.Ordered) :
    classItems source (items.flatMap ClassItem.written) = .ok items := by
  induction items with
  | nil => rfl
  | cons item items ih =>
    have ih := ih fun item mem => ordered item (List.mem_cons_of_mem _ mem)
    rw [List.flatMap_cons]
    cases item with
    | single c =>
      have alone : ∀ d ∈ (items.flatMap ClassItem.written).head?, d.isDash = false := by
        rcases items with _ | ⟨_ | _, items⟩ <;> simp [ClassItem.written]
      simp [ClassItem.written, classItems_single source (ClassChar.isDash_of c) alone, ih, Except.map]
    | range first last =>
      have ends : ¬last < first := Char.not_lt.2 (ordered _ List.mem_cons_self)
      simp [ClassItem.written, classItems, ends, ih, Except.map]

theorem readClass_print {items : List ClassItem} (some : items ≠ [])
    (ordered : ∀ item ∈ items, item.Ordered) (after : Text) :
    readClass (items.flatMap ClassItem.print ++ ']' :: after) = .ok (items, after) := by
  refine readClass_eq_ok.2 ⟨_, [], readClassChars_items _ after items, ?_,
    classItems_written [] ordered⟩
  obtain ⟨item, items, rfl⟩ := List.exists_cons_of_ne_nil some
  cases item <;> simp [ClassItem.written]

/-! ## References -/

theorem referenceOf_print {label : Option Text} {name : Text} (named : isName name)
    (labelled : ∀ l ∈ label, isName l) :
    referenceOf (printReference label name) = .ok (.reference label name) := by
  have apart {text : Text} (proper : isName text) (c : Char) (mem : c ∈ text) :
      (c != ':') = true := by
    rw [bne_iff_ne]
    rintro rfl
    exact not_mem_of_isName proper isNameChar_colon_brace.1 mem
  unfold printReference referenceOf
  cases label with
  | none =>
    rw [List.dropWhile_eq_nil_iff.2 (apart named)]
    simp [named]
  | some label =>
    have proper := labelled label rfl
    simp [List.dropWhile_append_of_pos (apart proper), List.takeWhile_append_of_pos (apart proper),
      proper, named]

theorem readReference_print {label : Option Text} {name : Text} (named : isName name)
    (labelled : ∀ l ∈ label, isName l) (after : Text) :
    ∃ left, readReference (printReference label name ++ '}' :: after) =
      .ok (.reference label name, left) ∧ left.1 = after := by
  have apart (c : Char) (mem : c ∈ printReference label name) : (c != '}') = true := by
    rw [bne_iff_ne]
    rintro rfl
    cases label with
    | none => exact not_mem_of_isName named isNameChar_colon_brace.2 mem
    | some label =>
      rcases List.mem_append.1 mem with mem | mem
      · exact not_mem_of_isName (labelled label rfl) isNameChar_colon_brace.2 mem
      · exact not_mem_of_isName named isNameChar_colon_brace.2 (by simpa using mem)
  unfold readReference
  split
  · rename_i none
    simp [List.dropWhile_append_of_pos apart] at none
  · rename_i c rest found
    rw [List.dropWhile_append_of_pos apart] at found
    obtain ⟨rfl, rfl⟩ := List.cons.inj found
    rw [List.takeWhile_append_of_pos apart]
    simp [referenceOf_print named labelled]

/-! ## Quantifiers -/

/-- The text does not start with the sign of a quantifier. -/
def Unquantified (text : Text) : Prop := ∀ c ∈ text.head?, c ∉ ['?', '+', '*']

theorem readQuantifier_print {quantifier : Quantifier} {rest : Text}
    (plain : quantifier = .once → Unquantified rest) :
    (readQuantifier (quantifier.print ++ rest)).1 = quantifier ∧
      (readQuantifier (quantifier.print ++ rest)).2.1 = rest := by
  cases quantifier with
  | optional | oneOrMore | anyNumber => exact ⟨rfl, rfl⟩
  | once =>
    refine readQuantifier_once rest fun c more eq => ?_
    have := plain rfl c (by simp [eq])
    simp_all

theorem unquantified_printChar (c : Char) (rest : Text) : Unquantified (printChar c ++ rest) := by
  unfold printChar
  split
  · simp [Unquantified]
  · rename_i plain
    simp only [patternSigns, List.mem_cons, not_or] at plain
    simp [Unquantified, plain]

theorem unquantified_print (atom : Atom) (rest : Text) : Unquantified (atom.print ++ rest) := by
  cases atom with
  | char c =>
    rw [Atom.print]
    exact unquantified_printChar c rest
  | oneOf | group | reference => simp [Atom.print, Unquantified]

/-! ## Pieces -/

section Pieces

variable {inGroup : Bool} {rest left : Text} {branches : Pattern} {quantifier : Quantifier}

theorem reads_atom {c : Char} {text : Text} {atom : Atom} (bar : c ≠ '|') (opening : c ≠ '(')
    (closing : c ≠ ')')
    (first : ∃ next, readAtom c text = .ok (atom, next) ∧ next.1 = quantifier.print ++ rest)
    (plain : quantifier = .once → Unquantified rest) (more : Reads inGroup rest branches left) :
    Reads inGroup (c :: text) (branches.consPiece ⟨atom, quantifier⟩) left := by
  obtain ⟨⟨_, short⟩, first, rfl⟩ := first
  obtain ⟨same, after⟩ := readQuantifier_print plain
  have whole := Reads.atom bar opening (fun stays => closing stays.2) first (after.symm ▸ more)
  rwa [same] at whole

theorem reads_group {source : Text} {inner : Pattern}
    (inside : Reads true (source ++ ')' :: (quantifier.print ++ rest)) inner
      (')' :: (quantifier.print ++ rest)))
    (plain : quantifier = .once → Unquantified rest) (more : Reads inGroup rest branches left) :
    Reads inGroup ('(' :: (source ++ ')' :: (quantifier.print ++ rest)))
      (branches.consPiece ⟨.group source inner, quantifier⟩) left := by
  obtain ⟨same, after⟩ := readQuantifier_print plain
  have whole := Reads.group inside (after.symm ▸ more)
  simpa only [same, List.length_append, Nat.add_sub_cancel, List.take_left'] using whole

/-- Whatever is around the atom, it is read as it is written. -/
def Atom.ReadsBack (atom : Atom) : Prop :=
  ∀ inGroup quantifier rest branches left, (quantifier = .once → Unquantified rest) →
    Reads inGroup rest branches left →
    Reads inGroup (atom.print ++ (quantifier.print ++ rest))
      (branches.consPiece ⟨atom, quantifier⟩) left

theorem readsBack_char (c : Char) : (Atom.char c).ReadsBack := by
  intro inGroup quantifier rest branches left plain more
  rw [Atom.print, printChar]
  split
  · rename_i sign
    refine reads_atom (by decide) (by decide) (by decide) ⟨⟨_, Nat.le_succ _⟩, ?_, rfl⟩ plain more
    simp [readAtom, readEscaped, sign]
  · rename_i ordinary
    have other {d : Char} (sign : d ∈ patternSigns) : c ≠ d := fun same => ordinary (same ▸ sign)
    refine reads_atom (other (by decide)) (other (by decide)) (other (by decide))
      ⟨_, readAtom_plain (other (by decide)) (other (by decide)) (other (by decide)) _, rfl⟩ plain more

theorem readsBack_oneOf {items : List ClassItem} (some : items ≠ [])
    (ordered : ∀ item ∈ items, item.Ordered) : (Atom.oneOf items).ReadsBack := by
  intro inGroup quantifier rest branches left plain more
  have read := readClass_print some ordered (quantifier.print ++ rest)
  simp only [Atom.print, List.cons_append, List.append_assoc, List.nil_append]
  exact reads_atom (by decide) (by decide) (by decide) (readAtom_class read) plain more

theorem readsBack_reference {label : Option Text} {name : Text} (named : isName name)
    (labelled : ∀ l ∈ label, isName l) : (Atom.reference label name).ReadsBack := by
  intro inGroup quantifier rest branches left plain more
  simp only [Atom.print, List.cons_append, List.append_assoc, List.nil_append]
  exact reads_atom (by decide) (by decide) (by decide)
    (readReference_print named labelled _) plain more

/-! ## Branches -/

theorem reads_printBranch {branch : List (Piece Atom)}
    (parts : ∀ piece ∈ branch, piece.atom.ReadsBack) (plain : Unquantified rest)
    (more : Reads inGroup rest ([] :: branches) left) :
    Reads inGroup (printBranch branch ++ rest) (branch :: branches) left ∧
      Unquantified (printBranch branch ++ rest) := by
  induction branch with
  | nil => exact ⟨more, plain⟩
  | cons piece pieces ih =>
    obtain ⟨more, plain⟩ := ih fun piece mem => parts piece (List.mem_cons_of_mem _ mem)
    simp only [printBranch, List.append_assoc]
    exact ⟨parts piece List.mem_cons_self inGroup _ _ _ left (fun _ => plain) more,
      unquantified_print _ _⟩

theorem reads_printBranches {pattern : Pattern} (some : pattern ≠ [])
    (parts : ∀ branch ∈ pattern, ∀ piece ∈ branch, piece.atom.ReadsBack)
    (stops : Stops inGroup left) : Reads inGroup (printBranches pattern ++ left) pattern left := by
  induction pattern with
  | nil => exact absurd rfl some
  | cons branch others ih =>
    have first := parts branch List.mem_cons_self
    cases others with
    | nil =>
      have ends : Reads inGroup left [[]] left ∧ Unquantified left := by
        rcases stops with rfl | ⟨rfl, after, rfl⟩
        · exact ⟨.nil inGroup, by simp [Unquantified]⟩
        · exact ⟨.close after, by simp [Unquantified]⟩
      exact (reads_printBranch first ends.2 ends.1).1
    | cons other others =>
      have rest := ih (List.cons_ne_nil _ _) fun branch mem => parts branch (List.mem_cons_of_mem _ mem)
      have bar : Unquantified ('|' :: (printBranches (other :: others) ++ left)) := by
        simp [Unquantified]
      rw [printBranches, List.append_assoc]
      · exact (reads_printBranch first bar (.bar rest)).1
      · exact List.cons_ne_nil _ _

theorem readsBack_group {inner : Pattern} (some : inner ≠ [])
    (parts : ∀ branch ∈ inner, ∀ piece ∈ branch, piece.atom.ReadsBack) :
    (Atom.group (printBranches inner) inner).ReadsBack := by
  intro inGroup quantifier rest branches left plain more
  have inside := reads_printBranches some parts (.inr ⟨rfl, quantifier.print ++ rest, rfl⟩)
  simpa [Atom.print] using reads_group inside plain more

end Pieces

/-! ## Patterns -/

/-- An atom that can be written: a class is not empty and its ranges are in order, a group has a
branch and keeps the text of its inside, and the names of a reference are names. -/
inductive Atom.Writable : Atom → Prop
  | char (c : Char) : Writable (.char c)
  | oneOf (items : List ClassItem) (some : items ≠ []) (ordered : ∀ item ∈ items, item.Ordered) :
    Writable (.oneOf items)
  | group (source : Text) (inner : Pattern) (kept : source = inner.print) (some : inner ≠ [])
    (parts : ∀ branch ∈ inner, ∀ piece ∈ branch, piece.atom.Writable) :
    Writable (.group source inner)
  | reference (label : Option Text) (name : Text) (named : isName name)
    (labelled : ∀ l ∈ label, isName l) : Writable (.reference label name)

structure Pattern.Writable (pattern : Pattern) : Prop where
  some : pattern ≠ []
  parts : ∀ branch ∈ pattern, ∀ piece ∈ branch, piece.atom.Writable

theorem Atom.Writable.readsBack {atom : Atom} (writable : atom.Writable) : atom.ReadsBack := by
  induction writable with
  | char c => exact readsBack_char c
  | oneOf items some ordered => exact readsBack_oneOf some ordered
  | group source inner kept some _ ih =>
    subst kept
    exact readsBack_group some ih
  | reference label name named labelled => exact readsBack_reference named labelled

theorem Pattern.Writable.reads {pattern : Pattern} (writable : pattern.Writable) :
    Reads false pattern.print pattern [] := by
  have ends : Stops false [] := .inl rfl
  have reads := reads_printBranches writable.some
    (fun branch mem piece mem' => (writable.parts branch mem piece mem').readsBack) ends
  rwa [List.append_nil] at reads

/-- A pattern that can be written is read as it is written. -/
theorem Pattern.read_print (pattern : Pattern) (writable : pattern.Writable) :
    Pattern.read pattern.print = .ok pattern :=
  read_of_reads writable.reads

theorem Pattern.read_print_signs :
    let inner : Pattern := [[⟨.oneOf [.range 'x' 'z', .single '-'], .once⟩, ⟨.char ')', .once⟩]]
    let pattern : Pattern := [[⟨.char 'a', .once⟩, ⟨.char '+', .once⟩],
      [⟨.group inner.print inner, .optional⟩, ⟨.char '|', .anyNumber⟩],
      [⟨.reference (some ['l']) ['n'], .oneOrMore⟩], []]
    pattern.Writable ∧
    pattern.print = "a\\+|([x-z\\-]\\))?\\|*|\x7bl:n\x7d+|".toList ∧
    Pattern.read pattern.print = .ok pattern := by
  intro inner pattern
  have letters : isName ['l'] ∧ isName ['n'] := by decide +kernel
  have within : ∀ branch ∈ inner, ∀ piece ∈ branch, piece.atom.Writable := by
    simp only [inner, List.forall_mem_singleton, List.forall_mem_cons]
    exact ⟨.oneOf _ (by simp) (by simp [ClassItem.Ordered]), .char ')'⟩
  have writable : pattern.Writable := by
    refine ⟨by simp [pattern], ?_⟩
    simp only [pattern, List.forall_mem_singleton, List.forall_mem_cons]
    exact ⟨⟨.char 'a', .char '+'⟩, ⟨.group _ inner rfl (by simp [inner]) within, .char '|'⟩,
      .reference _ _ letters.2 (by simpa using letters.1), by simp⟩
  exact ⟨writable, by decide +kernel, Pattern.read_print pattern writable⟩

end OpGrammar
