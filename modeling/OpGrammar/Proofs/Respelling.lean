import OpGrammar.Pattern.Names
import OpGrammar.Proofs.Notation

/-!
# Atoms in other words

`respell` goes through the text of a pattern and writes every atom of one spelling in another one,
inside of groups too. A group in parentheses can so become the reference to a name. When the name
did not occur before, the way back gives the text again.
-/

namespace OpGrammar

/-! ## Going through a text -/

/-- The text of the atom, other than a group, that a text starts with. -/
def atomText (first : Char) (rest : Text) : Text :=
  match readAtom first rest with
  | .ok (_, left) => first :: rest.take (rest.length - left.1.length)
  | .error _ => [first]

def inParentheses (text : Text) : Text := '(' :: (text ++ [')'])

def inBraces (text : Text) : Text := '{' :: (text ++ ['}'])

/-- A group that is not closed yet: the text from its inside on, and what was written before it. -/
structure OpenGroup where
  inside : Text
  before : Text

def respellAtom (old new atom other : Text) : Text := if atom = old then new else other

/-- Writes `new` for every atom that is spelled `old`. What is written already belongs to the
innermost group that is open. -/
def respell (old new : Text) (groups : List OpenGroup) (written text : Text) : Text :=
  match text, groups with
  | [], _ => written
  | '(' :: rest, _ => respell old new (⟨rest, written⟩ :: groups) [] rest
  | ')' :: rest, ⟨inside, before⟩ :: groups =>
    let source := inside.take (inside.length - (rest.length + 1))
    let group := respellAtom old new (inParentheses source) (inParentheses written)
    respell old new groups (before ++ group) rest
  | c :: rest, groups =>
    let atom := atomText c rest
    respell old new groups (written ++ respellAtom old new atom atom) (rest.drop (atom.length - 1))
termination_by text.length

section Respell

variable {old new : Text} {groups : List OpenGroup} {written rest : Text}

theorem respell_nil : respell old new groups written [] = written := by
  rw [respell]

theorem respell_open : respell old new groups written ('(' :: rest) =
    respell old new (⟨rest, written⟩ :: groups) [] rest := by
  rw [respell]

theorem respell_close (source before : Text) :
    respell old new (⟨source ++ ')' :: rest, before⟩ :: groups) written (')' :: rest) =
      respell old new groups
        (before ++ respellAtom old new (inParentheses source) (inParentheses written)) rest := by
  rw [respell]
  simp

theorem respell_atom {c : Char} {used : Text} (opening : c ≠ '(') (closing : c = ')' → groups = [])
    (atom : atomText c (used ++ rest) = c :: used) :
    respell old new groups written (c :: (used ++ rest)) =
      respell old new groups (written ++ respellAtom old new (c :: used) (c :: used)) rest := by
  rw [respell]
  · simp [atom]
  · exact opening
  · intro inside before outer some same
    rw [closing same] at some
    cases some

end Respell

/-! ## What becomes of a text -/

/-- Going through the first text is writing the second one, whatever stands around it. Outside of
all groups, a text may have closing parentheses of its own. -/
def Turns (old new : Text) (inGroup : Bool) (s s' : Text) : Prop :=
  ∀ groups written rest, (inGroup = false → groups = []) →
    respell old new groups written (s ++ rest) = respell old new groups (written ++ s') rest

namespace Turns

variable {old new : Text} {inGroup : Bool} {s s' t t' : Text}

theorem nil : Turns old new inGroup [] [] := by
  intro groups written rest _
  simp

theorem append (first : Turns old new inGroup s s') (second : Turns old new inGroup t t') :
    Turns old new inGroup (s ++ t) (s' ++ t') := by
  intro groups written rest outside
  rw [List.append_assoc, first groups _ _ outside, second groups _ _ outside, List.append_assoc]

theorem atom {c : Char} {used : Text} (opening : c ≠ '(') (closing : c = ')' → inGroup = false)
    (atom : ∀ rest, atomText c (used ++ rest) = c :: used) :
    Turns old new inGroup (c :: used) (respellAtom old new (c :: used) (c :: used)) := by
  intro groups written rest outside
  exact respell_atom opening (fun same => outside (closing same)) (atom rest)

theorem atom_other {c : Char} {used : Text} (opening : c ≠ '(')
    (closing : c = ')' → inGroup = false) (text : ∀ rest, atomText c (used ++ rest) = c :: used)
    (other : c :: used ≠ old) :
    Turns old new inGroup (c :: used) (c :: used) := by
  have turns : Turns old new inGroup (c :: used) _ := atom opening closing text
  rwa [respellAtom, if_neg other] at turns

theorem sign {c : Char} (sign : c ∈ ['|', '?', '+', '*']) (other : old ≠ [c]) :
    Turns old new inGroup [c] [c] := by
  have plain : c ∉ ['(', ')', '[', '{', '\\'] := by
    rintro mem
    simp only [List.mem_cons, List.not_mem_nil, or_false] at sign mem
    rcases sign with rfl | rfl | rfl | rfl <;> simp at mem
  simp only [List.mem_cons, List.not_mem_nil, or_false, not_or] at plain
  obtain ⟨opening, closing, bracket, brace, escape⟩ := plain
  have text (rest : Text) : atomText c ([] ++ rest) = [c] := by
    simp [atomText, readAtom_plain bracket brace escape]
  exact atom_other opening (fun same => absurd same closing) text other.symm

theorem group (inside : Turns old new true s s') : Turns old new inGroup (inParentheses s)
    (respellAtom old new (inParentheses s) (inParentheses s')) := by
  intro groups written rest _
  have source : inParentheses s ++ rest = '(' :: (s ++ ')' :: rest) := by simp [inParentheses]
  rw [source, respell_open, inside _ _ _ (by simp), List.nil_append, respell_close]

theorem group_other (inside : Turns old new true s s') (other : inParentheses s ≠ old) :
    Turns old new inGroup (inParentheses s) (inParentheses s') := by
  have turns : Turns old new inGroup _ _ := inside.group
  rwa [respellAtom, if_neg other] at turns

theorem respell_eq (turns : Turns old new inGroup s s') : respell old new [] [] s = s' := by
  have whole := turns [] [] [] fun _ => rfl
  rwa [List.append_nil, respell_nil] at whole

end Turns

theorem AtomText.exists_used {inGroup : Bool} {s : Text} {atom : Atom} (h : AtomText inGroup s atom)
    (single : ∀ source inner, atom ≠ .group source inner) :
    ∃ c used, s = c :: used ∧ c ≠ '(' ∧ (c = ')' → inGroup = false) ∧
      ∀ rest, atomText c (used ++ rest) = c :: used := by
  have text {c : Char} {used : Text} (reads : ∀ rest : Text, ∃ left : Remainder (used ++ rest),
      readAtom c (used ++ rest) = .ok (atom, left) ∧ left.1 = rest) (rest : Text) :
      atomText c (used ++ rest) = c :: used := by
    obtain ⟨left, read, eq⟩ := reads rest
    simp [atomText, read, eq]
  cases h with
  | group inside => exact absurd rfl (single _ _)
  | @oneOf _ s items some inside =>
    refine ⟨'[', s ++ [']'], rfl, by decide, by simp, text fun rest => ?_⟩
    exact readAtom_class (readClass_eq_ok_iff.2 ⟨s, by simp, some, inside⟩)
  | @reference _ label name named labelled =>
    refine ⟨'{', printReference label name ++ ['}'], rfl, by decide, by simp, text fun rest => ?_⟩
    rw [List.append_assoc]
    exact readReference_print named labelled rest
  | @escaped _ c sign =>
    refine ⟨'\\', [c], rfl, by decide, by simp, text fun rest => ⟨⟨rest, by simp⟩, ?_, rfl⟩⟩
    simp [readAtom, readEscaped, sign]
  | @char _ c plain stays =>
    simp only [List.mem_cons, List.not_mem_nil, or_false, not_or] at plain
    obtain ⟨-, opening, bracket, brace, escape⟩ := plain
    refine ⟨c, [], rfl, opening, fun same => ?_, text fun rest =>
      ⟨_, readAtom_plain bracket brace escape rest, rfl⟩⟩
    exact Bool.eq_false_iff.2 fun closing => stays closing same

/-! ## A name for a group -/

section Named

variable (name source : Text)

/-- The text with a reference to the name for every group that is written so. -/
def nameGroups (text : Text) : Text :=
  respell (inParentheses source) (inBraces name) [] [] text

mutual

/-- The atom with a reference to the name for every group that is written so. -/
def Atom.named : Atom → Atom
  | .char c => .char c
  | .oneOf items => .oneOf items
  | .reference label other => .reference label other
  | .group text inner =>
    if text = source then .reference none name
    else .group (nameGroups name source text) (namedBranches inner)

/-- The branches with a reference to the name for every group that is written so. -/
def namedBranches : List (List (Piece Atom)) → List (List (Piece Atom))
  | [] => []
  | branch :: branches => namedBranch branch :: namedBranches branches

/-- The branch with a reference to the name for every group that is written so. -/
def namedBranch : List (Piece Atom) → List (Piece Atom)
  | [] => []
  | ⟨atom, quantifier⟩ :: pieces => ⟨atom.named, quantifier⟩ :: namedBranch pieces

end

/-- The first text becomes the second when the group gets the name, and the second one the first
when the name is written out. -/
structure Swaps (inGroup : Bool) (s s' : Text) : Prop where
  there : Turns (inParentheses source) (inBraces name) inGroup s s'
  back : Turns (inBraces name) (inParentheses source) inGroup s' s

end Named

theorem atomText_inBraces {inGroup : Bool} {name : Text} (proper : isName name) :
    AtomText inGroup (inBraces name) (.reference none name) :=
  @AtomText.reference inGroup none name proper (by simp)

namespace Swaps

variable {name source : Text} {inGroup : Bool} {s s' t t' : Text}

theorem append (first : Swaps name source inGroup s s') (second : Swaps name source inGroup t t') :
    Swaps name source inGroup (s ++ t) (s' ++ t') :=
  ⟨first.there.append second.there, first.back.append second.back⟩

theorem sign {c : Char} (sign : c ∈ ['|', '?', '+', '*']) : Swaps name source inGroup [c] [c] :=
  ⟨.sign sign (by simp [inParentheses]), .sign sign (by simp [inBraces])⟩

theorem quantifier (quantifier : Quantifier) :
    Swaps name source inGroup quantifier.print quantifier.print := by
  cases quantifier with
  | once => exact ⟨.nil, .nil⟩
  | optional | oneOrMore | anyNumber => exact .sign (by decide)

theorem single {atom : Atom} (derives : AtomText inGroup s atom)
    (single : ∀ source inner, atom ≠ .group source inner) (other : s ≠ inBraces name) :
    Swaps name source inGroup s s := by
  obtain ⟨c, used, rfl, opening, closing, text⟩ := derives.exists_used single
  have away : c :: used ≠ inParentheses source := fun same => opening (List.cons.inj same).1
  exact ⟨.atom_other opening closing text away, .atom_other opening closing text other⟩

theorem group (inside : Swaps name source true s s') (other : s ≠ source) :
    Swaps name source inGroup (inParentheses s) (inParentheses s') := by
  have away : inParentheses s ≠ inParentheses source := by simpa [inParentheses] using other
  have away' : inParentheses s' ≠ inBraces name := by simp [inParentheses, inBraces]
  exact ⟨inside.there.group_other away, inside.back.group_other away'⟩

theorem named (inside : Swaps name source true source s') (proper : isName name) :
    Swaps name source inGroup (inParentheses source) (inBraces name) := by
  constructor
  · have turns : Turns _ _ inGroup _ _ := inside.there.group
    rwa [respellAtom, if_pos rfl] at turns
  · have derives : AtomText inGroup (inBraces name) (.reference none name) :=
      atomText_inBraces proper
    obtain ⟨c, used, eq, opening, closing, text⟩ := derives.exists_used (by simp)
    have turns : Turns (inBraces name) (inParentheses source) inGroup (c :: used) _ :=
      .atom opening closing text
    rwa [respellAtom, if_pos eq.symm, ← eq] at turns

end Swaps

section Named

variable {name source : Text}

theorem printReference_ne {label : Option Text} {other : Text} (proper : isName name)
    (unused : name ≠ other) : printReference label other ≠ name := by
  rintro rfl
  cases label with
  | none => exact unused rfl
  | some label =>
    exact not_mem_of_isName proper isNameChar_colon_brace.1 (by simp [printReference])

mutual

theorem UnionText.named (proper : isName name) {inGroup : Bool} {s : Text}
    {pattern : List (List (Piece Atom))} : UnionText inGroup s pattern →
      name ∉ namesOfBranches pattern → ∃ s', Swaps name source inGroup s s' ∧
        UnionText inGroup s' (namedBranches name source pattern)
  | .last branch, unused => by
    simp only [namesOfBranches, List.append_nil] at unused
    obtain ⟨s', swaps, derives, -⟩ := branch.named proper unused
    exact ⟨s', swaps, .last derives⟩
  | .more branch others, unused => by
    simp only [namesOfBranches, List.mem_append, not_or] at unused
    obtain ⟨s', swaps, derives, -⟩ := branch.named proper unused.1
    obtain ⟨t', swaps', derives'⟩ := others.named proper unused.2
    exact ⟨s' ++ '|' :: t', swaps.append ((Swaps.sign (by decide)).append swaps'),
      .more derives derives'⟩

theorem BranchText.named (proper : isName name) {inGroup : Bool} {s : Text}
    {pieces : List (Piece Atom)} : BranchText inGroup s pieces → name ∉ namesOfBranch pieces →
      ∃ s', Swaps name source inGroup s s' ∧
        BranchText inGroup s' (namedBranch name source pieces) ∧ (Unquantified s → Unquantified s')
  | .nil, _ => ⟨[], ⟨.nil, .nil⟩, .nil, id⟩
  | @BranchText.piece _ _ _ _ quantifier _ first taken more, unused => by
    simp only [namesOfBranch, List.mem_append, not_or] at unused
    obtain ⟨s', swaps, derives, some, plain⟩ := first.named proper unused.1
    obtain ⟨t', swaps', derives', plain'⟩ := more.named proper unused.2
    refine ⟨s' ++ (quantifier.print ++ t'),
      swaps.append ((Swaps.quantifier quantifier).append swaps'),
      .piece derives (fun once => plain' (taken once)) derives', fun unquantified => ?_⟩
    exact (plain unquantified.of_append).append fun none => absurd none some

theorem AtomText.named (proper : isName name) {inGroup : Bool} {s : Text} {atom : Atom} :
    AtomText inGroup s atom → name ∉ atom.names →
      ∃ s', Swaps name source inGroup s s' ∧ AtomText inGroup s' (atom.named name source) ∧
        s' ≠ [] ∧ (Unquantified s → Unquantified s')
  | .group (s := s) inside, unused => by
    obtain ⟨s', swaps, derives⟩ := inside.named proper unused
    rw [Atom.named]
    by_cases same : s = source
    · -- What became of the inside goes with the group.
      subst same
      rw [if_pos rfl]
      exact ⟨inBraces name, swaps.named proper, atomText_inBraces proper, List.cons_ne_nil _ _,
        fun _ => by simp [Unquantified, inBraces]⟩
    · rw [if_neg same, nameGroups, swaps.there.respell_eq]
      exact ⟨inParentheses s', swaps.group same, .group derives, List.cons_ne_nil _ _,
        fun _ => by simp [Unquantified, inParentheses]⟩
  | .oneOf full inside, _ => by
    have derives : AtomText inGroup _ _ := .oneOf full inside
    exact ⟨_, .single derives (by simp) (by simp [inBraces]), derives, List.cons_ne_nil _ _, id⟩
  | @AtomText.reference _ label other named labelled, unused => by
    have derives : AtomText inGroup _ _ := .reference named labelled
    have away : printReference label other ≠ name :=
      printReference_ne proper (List.ne_of_not_mem_cons unused)
    exact ⟨_, .single derives (by simp) (by simpa [inBraces] using away), derives,
      List.cons_ne_nil _ _, id⟩
  | .escaped sign, _ => by
    have derives : AtomText inGroup _ _ := .escaped sign
    exact ⟨_, .single derives (by simp) (by simp [inBraces]), derives, List.cons_ne_nil _ _, id⟩
  | .char plain stays, _ => by
    have derives : AtomText inGroup _ _ := .char plain stays
    exact ⟨_, .single derives (by simp) (by simp [inBraces]), derives, List.cons_ne_nil _ _, id⟩

end

theorem read_nameGroups (proper : isName name) {text : Text} {pattern : Pattern}
    (read : Pattern.read text = .ok pattern) (unused : name ∉ pattern.names) :
    Pattern.read (nameGroups name source text) = .ok (namedBranches name source pattern) := by
  obtain ⟨s', swaps, derives⟩ : ∃ s', Swaps name source false text s' ∧ _ :=
    (read_eq_ok_iff.1 read).named proper unused
  rw [nameGroups, swaps.there.respell_eq]
  exact read_eq_ok_iff.2 derives

/-- A class has no groups in it, and a parenthesis after a backslash is none. -/
example : nameGroups ['N'] "ab".toList "x(ab)+((y(ab)\\)))|[(ab)](abc)".toList =
    "x\x7bN\x7d+((y\x7bN\x7d\\)))|[(ab)](abc)".toList := by
  decide +kernel

theorem nameGroups_injective (proper : isName name) {text text' : Text} {pattern pattern' : Pattern}
    (read : Pattern.read text = .ok pattern) (read' : Pattern.read text' = .ok pattern')
    (unused : name ∉ pattern.names) (unused' : name ∉ pattern'.names)
    (same : nameGroups name source text = nameGroups name source text') : text = text' := by
  obtain ⟨s, swaps, -⟩ : ∃ s, Swaps name source false text s ∧ _ :=
    (read_eq_ok_iff.1 read).named proper unused
  obtain ⟨s', swaps', -⟩ : ∃ s', Swaps name source false text' s' ∧ _ :=
    (read_eq_ok_iff.1 read').named proper unused'
  rw [nameGroups, nameGroups, swaps.there.respell_eq, swaps'.there.respell_eq] at same
  rw [← swaps.back.respell_eq, same, swaps'.back.respell_eq]

end Named

end OpGrammar
