import OpGrammar.Proofs.Writing

/-!
# The notation of patterns

The notation as a grammar, with no reader in sight: `UnionText` says which texts derive which
pattern. A text is read as the pattern that it derives, and a text that derives none is refused. The
text of a group derives the inside of the group wherever it stands.
-/

namespace OpGrammar

/-! ## The grammar -/

/-- A character of a class: `-`, `]` and a backslash need a backslash before them. -/
inductive ClassCharText : Text → Char → Prop
  | plain {c : Char} (ordinary : c ∉ ['-', ']', '\\']) : ClassCharText [c] c
  | escaped {c : Char} (sign : c ∈ classSigns) : ClassCharText ['\\', c] c

/-- An item of a class: a character, or the ends of a range with `-` between them. -/
inductive ItemText : Text → ClassItem → Prop
  | single {s : Text} {c : Char} (char : ClassCharText s c) : ItemText s (.single c)
  | range {s t : Text} {first last : Char} (left : ClassCharText s first)
    (right : ClassCharText t last) (ordered : first ≤ last) :
    ItemText (s ++ '-' :: t) (.range first last)

inductive ItemsText : Text → List ClassItem → Prop
  | nil : ItemsText [] []
  | cons {s t : Text} {item : ClassItem} {items : List ClassItem} (first : ItemText s item)
    (more : ItemsText t items) : ItemsText (s ++ t) (item :: items)

mutual

/-- A union: branches with `|` between them. -/
inductive UnionText : Bool → Text → List (List (Piece Atom)) → Prop
  | last {inGroup : Bool} {s : Text} {pieces : List (Piece Atom)}
    (branch : BranchText inGroup s pieces) : UnionText inGroup s [pieces]
  | more {inGroup : Bool} {s t : Text} {pieces : List (Piece Atom)}
    {branches : List (List (Piece Atom))} (branch : BranchText inGroup s pieces)
    (others : UnionText inGroup t branches) : UnionText inGroup (s ++ '|' :: t) (pieces :: branches)

/-- A branch: pieces one after the other, each an atom with its quantifier. The sign of a quantifier
right after an atom is the quantifier of this atom. -/
inductive BranchText : Bool → Text → List (Piece Atom) → Prop
  | nil {inGroup : Bool} : BranchText inGroup [] []
  | piece {inGroup : Bool} {s t : Text} {atom : Atom} {quantifier : Quantifier}
    {pieces : List (Piece Atom)} (first : AtomText inGroup s atom)
    (taken : quantifier = .once → Unquantified t) (more : BranchText inGroup t pieces) :
    BranchText inGroup (s ++ (quantifier.print ++ t)) (⟨atom, quantifier⟩ :: pieces)

/-- An atom: a union in parentheses, a class in brackets, a reference in braces, a sign after a
backslash, or any other character. In a group `)` is not among them, since it ends the group. -/
inductive AtomText : Bool → Text → Atom → Prop
  | group {inGroup : Bool} {s : Text} {inner : List (List (Piece Atom))}
    (inside : UnionText true s inner) : AtomText inGroup ('(' :: (s ++ [')'])) (.group s inner)
  | oneOf {inGroup : Bool} {s : Text} {items : List ClassItem} (some : items ≠ [])
    (inside : ItemsText s items) : AtomText inGroup ('[' :: (s ++ [']'])) (.oneOf items)
  | reference {inGroup : Bool} {label : Option Text} {name : Text} (named : isName name)
    (labelled : ∀ l ∈ label, isName l) :
    AtomText inGroup ('{' :: (printReference label name ++ ['}'])) (.reference label name)
  | escaped {inGroup : Bool} {c : Char} (sign : c ∈ patternSigns) :
    AtomText inGroup ['\\', c] (.char c)
  | char {inGroup : Bool} {c : Char} (plain : c ∉ ['|', '(', '[', '{', '\\'])
    (stays : inGroup → c ≠ ')') : AtomText inGroup [c] (.char c)

end

/-! ## Classes -/

def ClassChar.text (c : ClassChar) : Text := if c.escaped then ['\\', c.char] else [c.char]

def ClassChar.Stands (c : ClassChar) : Prop :=
  if c.escaped then c.char ∈ classSigns else c.char ≠ ']' ∧ c.char ≠ '\\'

theorem ClassChar.Stands.charText {c : ClassChar} (stands : c.Stands) (plain : c.isDash = false) :
    ClassCharText c.text c.char := by
  obtain ⟨char, escaped⟩ := c
  cases escaped with
  | true => exact .escaped stands
  | false =>
    have dash : char ≠ '-' := by simpa [isDash] using plain
    have sign : char ≠ ']' ∧ char ≠ '\\' := stands
    exact .plain (by simp [dash, sign])

theorem ClassChar.text_of_isDash {c : ClassChar} (dash : c.isDash) : c.text = ['-'] := by
  obtain ⟨char, escaped⟩ := c
  simp only [isDash, Bool.and_eq_true, beq_iff_eq, Bool.not_eq_true'] at dash
  obtain ⟨rfl, rfl⟩ := dash
  rfl

theorem ClassCharText.exists_char {s : Text} {c : Char} (h : ClassCharText s c) :
    ∃ d : ClassChar, d.Stands ∧ d.isDash = false ∧ d.text = s ∧ d.char = c := by
  cases h with
  | plain ordinary =>
    simp only [List.mem_cons, List.not_mem_nil, or_false, not_or] at ordinary
    exact ⟨⟨c, false⟩, ordinary.2, by simp [ClassChar.isDash, ordinary.1], rfl, rfl⟩
  | escaped sign => exact ⟨⟨c, true⟩, sign, by simp [ClassChar.isDash], rfl, rfl⟩

theorem readClassChars_eq_ok {opening text : Text} {chars : List ClassChar} {after : Text} :
    readClassChars opening text = .ok (chars, after) ↔
      (∀ c ∈ chars, c.Stands) ∧ text = chars.flatMap ClassChar.text ++ ']' :: after := by
  constructor
  · intro h
    fun_induction readClassChars opening text generalizing chars after with
    | case1 | case3 | case5 => cases h
    | case2 rest =>
      cases h
      exact ⟨List.forall_mem_nil _, rfl⟩
    | case4 c rest sign ih =>
      obtain ⟨chars', read, rfl⟩ := exists_of_map_cons h
      obtain ⟨stand, rfl⟩ := ih read
      exact ⟨List.forall_mem_cons.2 ⟨sign, stand⟩, rfl⟩
    | case6 c rest closing escape escape' ih =>
      obtain ⟨chars', read, rfl⟩ := exists_of_map_cons h
      obtain ⟨stand, rfl⟩ := ih read
      refine ⟨List.forall_mem_cons.2 ⟨⟨closing, fun same => ?_⟩, stand⟩, rfl⟩
      cases whole : chars'.flatMap ClassChar.text ++ ']' :: after with
      | nil => exact escape same whole
      | cons d more => exact escape' d more same whole
  · rintro ⟨stand, rfl⟩
    induction chars with
    | nil => simp [readClassChars]
    | cons c chars ih =>
      obtain ⟨first, others⟩ := List.forall_mem_cons.1 stand
      obtain ⟨char, escaped⟩ := c
      cases escaped with
      | true =>
        have sign : char ∈ classSigns := first
        simp [ClassChar.text, readClassChars, sign, ih others, Except.map]
      | false => simp [ClassChar.text, readClassChars_plain first.1 first.2, ih others, Except.map]

theorem itemsText_of_classItems {source : Text} {chars : List ClassChar} {items : List ClassItem}
    (stand : ∀ c ∈ chars, c.Stands) (h : classItems source chars = .ok items) :
    ItemsText (chars.flatMap ClassChar.text) items := by
  fun_induction classItems source chars generalizing items with
  | case1 | case3 | case4 | case6 => cases h
  | case2 c d e rest dash plain ih =>
    obtain ⟨items', read, rfl⟩ := exists_of_map h
    obtain ⟨first, others⟩ := List.forall_mem_cons.1 stand
    exact .cons (.single (first.charText (Bool.not_eq_true _ ▸ dash))) (ih others read)
  | case5 c d e rest dash range dash' order ih =>
    obtain ⟨items', read, rfl⟩ := exists_of_map h
    simp only [List.forall_mem_cons] at stand
    obtain ⟨first, -, last, others⟩ := stand
    have between : d.text = ['-'] := ClassChar.text_of_isDash (by simpa using range)
    have item := ItemText.range (first.charText (Bool.not_eq_true _ ▸ dash))
      (last.charText (Bool.not_eq_true _ ▸ dash')) (Char.not_lt.1 order)
    simpa [between] using ItemsText.cons item (ih others read)
  | case7 c rest short dash ih =>
    obtain ⟨items', read, rfl⟩ := exists_of_map h
    obtain ⟨first, others⟩ := List.forall_mem_cons.1 stand
    exact .cons (.single (first.charText (Bool.not_eq_true _ ▸ dash))) (ih others read)
  | case8 =>
    cases h
    exact .nil

theorem ItemsText.exists_chars {s : Text} {items : List ClassItem} (h : ItemsText s items) :
    ∃ chars : List ClassChar, (∀ c ∈ chars, c.Stands) ∧ chars.flatMap ClassChar.text = s ∧
      (∀ c ∈ chars.head?, c.isDash = false) ∧ (items ≠ [] → chars ≠ []) ∧
        ∀ source, classItems source chars = .ok items := by
  induction h with
  | nil => exact ⟨[], by simp [classItems]⟩
  | cons first _ ih =>
    obtain ⟨chars, stand, rfl, alone, -, formed⟩ := ih
    cases first with
    | single char =>
      obtain ⟨d, stands, plain, rfl, rfl⟩ := char.exists_char
      refine ⟨d :: chars, List.forall_mem_cons.2 ⟨stands, stand⟩, rfl, by simpa using plain,
        fun _ => List.cons_ne_nil _ _, fun source => ?_⟩
      rw [classItems_single source plain alone, formed]
      rfl
    | range left right ordered =>
      obtain ⟨d, stands, plain, rfl, rfl⟩ := left.exists_char
      obtain ⟨e, stands', plain', rfl, rfl⟩ := right.exists_char
      refine ⟨d :: .dash :: e :: chars, ?_, by simp [ClassChar.dash, ClassChar.text],
        by simpa using plain, fun _ => List.cons_ne_nil _ _, fun source => ?_⟩
      · simp only [List.forall_mem_cons]
        exact ⟨stands, by simp [ClassChar.Stands, ClassChar.dash], stands', stand⟩
      · simp [classItems, plain, plain', Char.not_lt.2 ordered, formed, Except.map]

theorem readClass_eq_ok_iff {rest after : Text} {items : List ClassItem} :
    readClass rest = .ok (items, after) ↔
      ∃ s, rest = s ++ ']' :: after ∧ items ≠ [] ∧ ItemsText s items := by
  rw [readClass_eq_ok]
  constructor
  · rintro ⟨chars, source, read, some, formed⟩
    obtain ⟨stand, rfl⟩ := readClassChars_eq_ok.1 read
    obtain ⟨item, mem, -⟩ := classItems_some formed some
    exact ⟨_, rfl, List.ne_nil_of_mem mem, itemsText_of_classItems stand formed⟩
  · rintro ⟨s, rfl, some, inside⟩
    obtain ⟨chars, stand, rfl, -, some', formed⟩ := inside.exists_chars
    exact ⟨chars, [], readClassChars_eq_ok.2 ⟨stand, rfl⟩, some' some, formed []⟩

/-! ## What is derived is read -/

theorem Unquantified.append {s t : Text} (first : Unquantified s)
    (second : s = [] → Unquantified t) : Unquantified (s ++ t) := by
  cases s with
  | nil => exact second rfl
  | cons c s => exact first

theorem Unquantified.of_append {s t : Text} (h : Unquantified (s ++ t)) : Unquantified s := by
  cases s with
  | nil => simp [Unquantified]
  | cons c s => exact h

theorem Stops.reads {inGroup : Bool} {left : Text} (stops : Stops inGroup left) :
    Reads inGroup left [[]] left ∧ Unquantified left := by
  rcases stops with rfl | ⟨rfl, after, rfl⟩
  · exact ⟨.nil inGroup, by simp [Unquantified]⟩
  · exact ⟨.close after, by simp [Unquantified]⟩

mutual

theorem UnionText.reads {inGroup : Bool} {s : Text} {pattern : Pattern} :
    UnionText inGroup s pattern → ∀ {left : Text}, Stops inGroup left →
      Reads inGroup (s ++ left) pattern left
  | .last branch, _, stops => branch.reads stops.reads.2 stops.reads.1
  | .more branch others, left, stops => by
    have bar {t : Text} : Unquantified ('|' :: t) := by simp [Unquantified]
    rw [List.append_assoc, List.cons_append]
    exact branch.reads bar (.bar (others.reads stops))

theorem BranchText.reads {inGroup : Bool} {s : Text} {pieces : List (Piece Atom)} :
    BranchText inGroup s pieces → ∀ {rest left : Text} {branches : Pattern}, Unquantified rest →
      Reads inGroup rest ([] :: branches) left → Reads inGroup (s ++ rest) (pieces :: branches) left
  | .nil, _, _, _, _, after => after
  | .piece first taken more, rest, _, _, plain, after => by
    rw [List.append_assoc, List.append_assoc]
    exact first.reads (fun once => (taken once).append fun _ => plain) (more.reads plain after)

theorem AtomText.reads {inGroup : Bool} {s : Text} {atom : Atom} :
    AtomText inGroup s atom → ∀ {quantifier : Quantifier} {rest left : Text} {branches : Pattern},
      (quantifier = .once → Unquantified rest) → Reads inGroup rest branches left →
      Reads inGroup (s ++ (quantifier.print ++ rest)) (branches.consPiece ⟨atom, quantifier⟩) left
  | .group inside, quantifier, rest, _, _, plain, more => by
    have within := inside.reads (.inr ⟨rfl, quantifier.print ++ rest, rfl⟩)
    simpa using reads_group within plain more
  | .oneOf full inside, quantifier, rest, _, _, plain, more => by
    have read : readClass _ = .ok (_, quantifier.print ++ rest) :=
      readClass_eq_ok_iff.2 ⟨_, rfl, full, inside⟩
    simpa using reads_atom (by decide) (by decide) (by decide) (readAtom_class read) plain more
  | .reference named labelled, _, _, _, _, plain, more =>
    readsBack_reference named labelled _ _ _ _ _ plain more
  | .escaped sign, _, _, _, _, plain, more => by
    refine reads_atom (by decide) (by decide) (by decide) ⟨⟨_, Nat.le_succ _⟩, ?_, rfl⟩ plain more
    simp [readAtom, readEscaped, sign]
  | .char ordinary stays, quantifier, rest, left, _, plain, more => by
    simp only [List.mem_cons, List.not_mem_nil, or_false, not_or] at ordinary
    obtain ⟨bar, opening, bracket, brace, escape⟩ := ordinary
    obtain ⟨same, after⟩ := readQuantifier_print plain
    have first := readAtom_plain bracket brace escape (quantifier.print ++ rest)
    have whole := Reads.atom bar opening (fun closing => stays closing.1 closing.2) first
      (after.symm ▸ more)
    rwa [same] at whole

end

/-! ## What is read is derived -/

theorem readQuantifier_eq (text : Text) :
    text = (readQuantifier text).1.print ++ (readQuantifier text).2.1 ∧
      ((readQuantifier text).1 = .once → Unquantified (readQuantifier text).2.1) := by
  unfold readQuantifier
  split
  · exact ⟨rfl, by simp⟩
  · exact ⟨rfl, by simp⟩
  · exact ⟨rfl, by simp⟩
  · rename_i optional plus star
    refine ⟨rfl, fun _ c first sign => ?_⟩
    obtain ⟨rest, eq⟩ := List.head?_eq_some_iff.1 first
    simp only [List.mem_cons, List.not_mem_nil, or_false] at sign
    rcases sign with rfl | rfl | rfl
    · exact optional rest eq
    · exact plus rest eq
    · exact star rest eq

theorem referenceOf_eq_ok {reference : Text} {atom : Atom} (h : referenceOf reference = .ok atom) :
    ∃ label name, reference = printReference label name ∧ isName name ∧
      (∀ l ∈ label, isName l) ∧ atom = .reference label name := by
  unfold referenceOf at h
  split at h
  · split at h
    · rename_i named
      cases h
      exact ⟨none, reference, rfl, named, by simp, rfl⟩
    · cases h
  · rename_i d name found
    dsimp only at h
    split at h
    · rename_i named
      cases h
      rw [Bool.and_eq_true] at named
      have colon := List.head?_dropWhile_not (· != ':') reference
      simp only [found, List.head?_cons, bne_eq_false_iff_eq] at colon
      subst colon
      refine ⟨_, _, ?_, named.2, by simpa using named.1, rfl⟩
      rw [printReference, ← found, List.takeWhile_append_dropWhile]
    · cases h

theorem atomText_of_readAtom {inGroup : Bool} {c : Char} {rest : Text} {atom : Atom}
    {left : Remainder rest} (bar : c ≠ '|') (opening : c ≠ '(') (stays : ¬(inGroup ∧ c = ')'))
    (h : readAtom c rest = .ok (atom, left)) :
    ∃ used, rest = used ++ left.1 ∧ AtomText inGroup (c :: used) atom := by
  rcases readAtom_cases h with ⟨items, rfl, rfl, read⟩ | ⟨rfl, reference, name, found, read⟩ |
    ⟨d, rfl, eq, sign, rfl⟩ | ⟨bracket, brace, escape, eq, rfl⟩
  · obtain ⟨s, eq, full, inside⟩ := readClass_eq_ok_iff.1 read
    exact ⟨s ++ [']'], by simpa using eq, .oneOf full inside⟩
  · obtain ⟨label, name', rfl, named, labelled, rfl⟩ := referenceOf_eq_ok read
    have whole := List.takeWhile_append_dropWhile (p := (· != '}')) (l := rest)
    rw [name, found] at whole
    exact ⟨printReference label name' ++ ['}'], by simpa using whole.symm,
      .reference named labelled⟩
  · exact ⟨[d], eq, .escaped sign⟩
  · refine ⟨[], eq.symm, .char ?_ fun closing same => stays ⟨closing, same⟩⟩
    simp [bar, opening, bracket, brace, escape]

theorem UnionText.consPiece {inGroup : Bool} {s t : Text} {atom : Atom} {quantifier : Quantifier}
    {branches : Pattern} (first : AtomText inGroup s atom)
    (taken : quantifier = .once → Unquantified t) (more : UnionText inGroup t branches) :
    UnionText inGroup (s ++ (quantifier.print ++ t)) (branches.consPiece ⟨atom, quantifier⟩) := by
  cases more with
  | last branch => exact .last (.piece first taken branch)
  | more branch others =>
    have branch' := BranchText.piece first (fun once => (taken once).of_append) branch
    simpa [Branches.consPiece] using UnionText.more branch' others

/-- What a reading uses up derives what is read. -/
theorem Reads.unionText {inGroup : Bool} {text left : Text} {pattern : Pattern}
    (h : Reads inGroup text pattern left) :
    ∃ used, text = used ++ left ∧ UnionText inGroup used pattern := by
  induction h with
  | nil => exact ⟨[], rfl, .last .nil⟩
  | bar _ ih =>
    obtain ⟨used, rfl, more⟩ := ih
    exact ⟨'|' :: used, rfl, .more .nil more⟩
  | close => exact ⟨[], rfl, .last .nil⟩
  | @group inGroup rest after last d inner branches inside _ ih₁ ih₂ =>
    obtain ⟨source, rfl, within⟩ := ih₁
    obtain ⟨used, eq, more⟩ := ih₂
    obtain ⟨eq', once⟩ := readQuantifier_eq after
    obtain rfl : d = ')' := by
      rcases inside.left with none | ⟨-, _, some⟩
      · cases none
      · exact (List.cons.inj some).1
    rw [eq] at eq' once
    have piece := UnionText.consPiece (.group within) (fun taken => (once taken).of_append) more
    refine ⟨_, ?_, by simpa using piece⟩
    simpa using eq'
  | @atom inGroup c rest last atom left branches bar opening stays first _ ih =>
    obtain ⟨s, eq, atomText⟩ := atomText_of_readAtom bar opening stays first
    obtain ⟨used, eq', more⟩ := ih
    obtain ⟨eq'', once⟩ := readQuantifier_eq left.1
    rw [eq'] at eq'' once
    have piece := UnionText.consPiece atomText (fun taken => (once taken).of_append) more
    have whole : s ++ left.1 = _ := congrArg (s ++ ·) eq''
    rw [← eq] at whole
    refine ⟨_, ?_, piece⟩
    simpa using whole

theorem read_eq_ok_iff {text : Text} {pattern : Pattern} :
    Pattern.read text = .ok pattern ↔ UnionText false text pattern := by
  constructor
  · intro h
    obtain ⟨left, reads⟩ := reads_of_read h
    obtain ⟨used, rfl, derives⟩ := reads.unionText
    obtain rfl : left = [] := by simpa using reads.left
    simpa using derives
  · intro derives
    have reads : Reads false (text ++ []) pattern [] := derives.reads (.inl rfl)
    rw [List.append_nil] at reads
    exact read_of_reads reads

/-! ## Faults -/

/-- The text that the fault names, if it names one from a place on, starts there with what is at
fault: a bracket that is never closed, or a backslash. -/
def PatternError.PointsInto (text : Text) : PatternError → Prop
  | .unclosedBracket rest => rest <:+ text ∧ ∃ c ∈ ['(', '[', '{'], ∃ inside, rest = c :: inside
  | .needlessEscape rest => rest <:+ text ∧ ∃ inside, rest = '\\' :: inside
  | _ => True

theorem PatternError.PointsInto.mono {text text' : Text} {e : PatternError}
    (points : e.PointsInto text) (suffix : text <:+ text') : e.PointsInto text' := by
  cases e with
  | unclosedBracket | needlessEscape => exact ⟨points.1.trans suffix, points.2⟩
  | malformedClass | invertedRange | malformedReference => trivial

theorem error_of_map {α β ε : Type} {f : α → β} {x : Except ε α} {e : ε} (h : x.map f = .error e) :
    x = .error e := by
  cases x with
  | error e' => exact congrArg _ (Except.error.inj h)
  | ok a => cases h

theorem error_of_bind {α β ε : Type} {f : α → Except ε β} {x : Except ε α} {e : ε}
    (h : x.bind f = .error e) : x = .error e ∨ ∃ a, x = .ok a ∧ f a = .error e := by
  cases x with
  | error e' => exact .inl (congrArg _ (Except.error.inj h))
  | ok a => exact .inr ⟨a, rfl, h⟩

theorem readClassChars_points {inside text : Text} {e : PatternError} (suffix : text <:+ inside)
    (h : readClassChars ('[' :: inside) text = .error e) : e.PointsInto ('[' :: inside) := by
  fun_induction readClassChars ('[' :: inside) text with
  | case1 | case3 =>
    cases h
    exact ⟨List.suffix_refl _, '[', by simp⟩
  | case2 => cases h
  | case4 c rest sign ih =>
    refine ih (.trans ?_ suffix) (error_of_map h)
    exact (List.suffix_cons c rest).trans (List.suffix_cons _ _)
  | case5 c rest sign =>
    cases h
    exact ⟨suffix.trans (List.suffix_cons _ _), by simp⟩
  | case6 c rest closing escape escape' ih =>
    exact ih ((List.suffix_cons c rest).trans suffix) (error_of_map h)

theorem classItems_points {source text : Text} {chars : List ClassChar} {e : PatternError}
    (h : classItems source chars = .error e) : e.PointsInto text := by
  fun_induction classItems source chars with
  | case1 | case3 | case4 | case6 =>
    cases h
    trivial
  | case2 _ _ _ _ _ _ ih | case5 _ _ _ _ _ _ _ _ ih | case7 _ _ _ _ ih => exact ih (error_of_map h)
  | case8 => cases h

theorem readClass_points {rest : Text} {e : PatternError} (h : readClass rest = .error e) :
    e.PointsInto ('[' :: rest) := by
  unfold readClass at h
  rcases error_of_bind h with h | ⟨⟨chars, after⟩, -, h⟩
  · exact readClassChars_points (List.suffix_refl _) h
  · dsimp only at h
    split at h
    · cases h
      trivial
    · rcases error_of_bind h with h | ⟨items, -, h⟩
      · exact classItems_points h
      · cases h

theorem referenceOf_points {reference text : Text} {e : PatternError}
    (h : referenceOf reference = .error e) : e.PointsInto text := by
  unfold referenceOf at h
  split at h
  · split at h <;> cases h
    trivial
  · dsimp only at h
    split at h <;> cases h
    trivial

theorem readAtom_points {c : Char} {rest : Text} {e : PatternError}
    (h : readAtom c rest = .error e) : e.PointsInto (c :: rest) := by
  unfold readAtom at h
  split at h
  · split at h
    · rename_i e' failed
      cases h
      exact readClass_points failed
    · cases h
  · unfold readReference at h
    split at h
    · cases h
      exact ⟨List.suffix_refl _, '{', by simp⟩
    · rcases error_of_bind h with h | ⟨atom, -, h⟩
      · exact referenceOf_points h
      · cases h
  · unfold readEscaped at h
    split at h
    · cases h
      exact ⟨List.suffix_refl _, by simp⟩
    · split at h
      · cases h
      · cases h
        exact ⟨List.suffix_refl _, by simp⟩
  · cases h

theorem readParts_points {inGroup : Bool} {text : Text} {e : PatternError}
    (h : readParts inGroup text = .error e) : e.PointsInto text := by
  induction n : text.length using Nat.strongRecOn generalizing inGroup text e with
  | ind n ih =>
    subst n
    -- after an atom the fault is in what follows its quantifier
    have later {text' left : Text} {atom : Atom} (suffix : left <:+ text') {c : Char}
        (whole : text = c :: text') (h : readMore inGroup atom left = .error e) :
        e.PointsInto text := by
      have quantified : (readQuantifier left).2.1 <:+ left := ⟨_, (readQuantifier_eq left).1.symm⟩
      have shorter := (quantified.trans suffix).length_le
      have points := ih _ (by simp [whole]; omega) (error_of_map h) rfl
      exact points.mono (whole ▸ (quantified.trans suffix).trans (List.suffix_cons c text'))
    cases text with
    | nil =>
      rw [readParts_nil] at h
      cases h
    | cons c rest =>
      by_cases bar : c = '|'
      · subst bar
        rw [readParts_bar] at h
        have points := ih _ (Nat.lt_succ_self _) (error_of_map h) rfl
        exact points.mono (List.suffix_cons _ _)
      by_cases opening : c = '('
      · subst opening
        rw [readParts_group] at h
        rcases error_of_bind h with h | ⟨⟨inner, between⟩, inside, h⟩
        · exact (ih _ (Nat.lt_succ_self _) h rfl).mono (List.suffix_cons _ _)
        cases between with
        | nil =>
          cases h
          exact ⟨List.suffix_refl _, '(', by simp⟩
        | cons d after =>
          obtain ⟨used, eq, -⟩ := (reads_of_readParts true rest inner _ inside).local
          exact later ((List.suffix_cons d after).trans ⟨used, eq.symm⟩) rfl h
      by_cases closing : inGroup ∧ c = ')'
      · obtain ⟨rfl, rfl⟩ := closing
        rw [readParts_close] at h
        cases h
      · rw [readParts_atom inGroup c rest bar opening closing] at h
        rcases error_of_bind h with h | ⟨⟨atom, left⟩, first, h⟩
        · exact readAtom_points h
        · obtain ⟨used, eq, -⟩ := readAtom_local first
          exact later ⟨used, eq.symm⟩ rfl h

theorem read_points {text : Text} {e : PatternError} (h : Pattern.read text = .error e) :
    e.PointsInto text := by
  rw [read_eq] at h
  exact readParts_points (error_of_map h)

/-- A text is read as the pattern that it derives, and a text that derives none is refused. A fault
that holds the text from a place on holds an end of the text, from the bracket that is never closed
or from the backslash on. -/
theorem read_iff_derives (text : Text) :
    (∀ pattern, Pattern.read text = .ok pattern ↔ UnionText false text pattern) ∧
      (∀ rest, Pattern.read text = .error (.unclosedBracket rest) →
        rest <:+ text ∧ ∃ c ∈ ['(', '[', '{'], ∃ inside, rest = c :: inside) ∧
      ∀ rest, Pattern.read text = .error (.needlessEscape rest) →
        rest <:+ text ∧ ∃ inside, rest = '\\' :: inside :=
  ⟨fun _ => read_eq_ok_iff, fun _ h => read_points h, fun _ h => read_points h⟩

theorem read_iff_derives_faults :
    Pattern.read "a|(b[c)]+(d".toList = .error (.unclosedBracket "(d".toList) ∧
    Pattern.read "a|(b[\\d]".toList = .error (.needlessEscape "\\d]".toList) ∧
    "(d".toList <:+ "a|(b[c)]+(d".toList ∧ "\\d]".toList <:+ "a|(b[\\d]".toList := by
  have bracket : Pattern.read "a|(b[c)]+(d".toList = .error (.unclosedBracket "(d".toList) := by
    with_unfolding_all rfl
  have escape : Pattern.read "a|(b[\\d]".toList = .error (.needlessEscape "\\d]".toList) := by
    with_unfolding_all rfl
  exact ⟨bracket, escape, ((read_iff_derives _).2.1 _ bracket).1,
    ((read_iff_derives _).2.2 _ escape).1⟩

/-! ## Groups -/

/-- The pattern holds a group with this text and this inside, at some depth. -/
inductive Pattern.Holds : Pattern → Text → Pattern → Prop
  | here {pattern inner : Pattern} {branch : List (Piece Atom)} {piece : Piece Atom} {source : Text}
    (mem : branch ∈ pattern) (mem' : piece ∈ branch) (group : piece.atom = .group source inner) :
    Holds pattern source inner
  | inside {pattern between inner : Pattern} {branch : List (Piece Atom)} {piece : Piece Atom}
    {outer source : Text} (mem : branch ∈ pattern) (mem' : piece ∈ branch)
    (group : piece.atom = .group outer between) (within : Holds between source inner) :
    Holds pattern source inner

theorem BranchText.exists_atomText {inGroup : Bool} {s : Text} {pieces : List (Piece Atom)}
    {piece : Piece Atom} (h : BranchText inGroup s pieces) (mem : piece ∈ pieces) :
    ∃ t, t <:+: s ∧ AtomText inGroup t piece.atom := by
  induction pieces generalizing s with
  | nil => cases mem
  | cons first pieces ih =>
    cases h with
    | piece atom _ more =>
      rcases List.mem_cons.1 mem with rfl | mem
      · exact ⟨_, List.infix_append' [] _ _, atom⟩
      · obtain ⟨t, within, atom'⟩ := ih more mem
        refine ⟨t, within.trans ?_, atom'⟩
        exact ((List.suffix_append _ _).trans (List.suffix_append _ _)).isInfix

theorem UnionText.exists_atomText {inGroup : Bool} {s : Text} {pattern : Pattern}
    {branch : List (Piece Atom)} {piece : Piece Atom} (h : UnionText inGroup s pattern)
    (mem : branch ∈ pattern) (mem' : piece ∈ branch) :
    ∃ t, t <:+: s ∧ AtomText inGroup t piece.atom := by
  induction pattern generalizing s with
  | nil => cases mem
  | cons first others ih =>
    cases h with
    | last branch' =>
      obtain rfl := List.mem_singleton.1 mem
      exact branch'.exists_atomText mem'
    | @more _ s' t' _ _ branch' rest =>
      rcases List.mem_cons.1 mem with rfl | mem
      · obtain ⟨t, within, atom⟩ := branch'.exists_atomText mem'
        exact ⟨t, within.trans (List.prefix_append _ _).isInfix, atom⟩
      · obtain ⟨t, within, atom⟩ := ih rest mem
        refine ⟨t, within.trans ?_, atom⟩
        exact ((List.suffix_cons _ _).trans (List.suffix_append _ _)).isInfix

theorem UnionText.exists_group {inGroup : Bool} {s source : Text} {pattern inner : Pattern}
    {branch : List (Piece Atom)} {piece : Piece Atom} (h : UnionText inGroup s pattern)
    (mem : branch ∈ pattern) (mem' : piece ∈ branch) (group : piece.atom = .group source inner) :
    source <:+: s ∧ UnionText true source inner := by
  obtain ⟨t, within, atom⟩ := h.exists_atomText mem mem'
  rw [group] at atom
  cases atom with
  | group inside => exact ⟨List.IsInfix.trans ⟨['('], [')'], by simp⟩ within, inside⟩

theorem Pattern.Holds.derives {pattern inner : Pattern} {source : Text}
    (holds : pattern.Holds source inner) :
    ∀ {inGroup : Bool} {s : Text}, UnionText inGroup s pattern →
      source <:+: s ∧ UnionText true source inner := by
  induction holds with
  | here mem mem' group => exact fun h => h.exists_group mem mem' group
  | inside mem mem' group _ ih =>
    intro inGroup s h
    obtain ⟨within, inside⟩ := h.exists_group mem mem' group
    obtain ⟨within', derives⟩ := ih inside
    exact ⟨within'.trans within, derives⟩

theorem UnionText.read {source : Text} {inner : Pattern} (h : UnionText true source inner) :
    Pattern.read source = .ok inner := by
  have inside := h.reads (.inr ⟨rfl, [], rfl⟩)
  simpa using inside.source

theorem read_of_holds {text source : Text} {pattern inner : Pattern}
    (read : Pattern.read text = .ok pattern) (holds : pattern.Holds source inner) :
    source <:+: text ∧ Pattern.read source = .ok inner := by
  obtain ⟨within, derives⟩ := holds.derives (read_eq_ok_iff.1 read)
  exact ⟨within, derives.read⟩

/-- The text of a group stands in the text of the pattern, and it determines the inside of the
group: two groups with one text have one inside, whatever patterns they are in. -/
theorem group_of_source (text source : Text) (pattern inner : Pattern)
    (read : Pattern.read text = .ok pattern) (holds : pattern.Holds source inner) :
    source <:+: text ∧ Pattern.read source = .ok inner ∧
      ∀ text' pattern' inner', Pattern.read text' = .ok pattern' → pattern'.Holds source inner' →
        inner' = inner := by
  obtain ⟨within, inside⟩ := read_of_holds read holds
  refine ⟨within, inside, fun text' pattern' inner' read' holds' => ?_⟩
  have inside' := (read_of_holds read' holds').2
  exact Except.ok.inj (inside'.symm.trans inside)

/-- Closing parentheses are plain after a backslash and in a class, and a quantifier can stand right
before the one that closes the group. -/
theorem group_of_source_nested :
    let text : Text := "x((\\)[)]+)?)".toList
    let source : Text := "\\)[)]+".toList
    let inner : Pattern := [[⟨.char ')', .once⟩, ⟨.oneOf [.single ')'], .oneOrMore⟩]]
    let between : Pattern := [[⟨.group source inner, .optional⟩]]
    let pattern : Pattern := [[⟨.char 'x', .once⟩, ⟨.group "(\\)[)]+)?".toList between, .once⟩]]
    Pattern.read text = .ok pattern ∧ pattern.Holds source inner ∧ source <:+: text ∧
      Pattern.read source = .ok inner := by
  intro text source inner between pattern
  have read : Pattern.read text = .ok pattern := by with_unfolding_all rfl
  have holds : pattern.Holds source inner := by
    exact .inside (List.mem_singleton_self _)
      (List.mem_cons_of_mem _ (List.mem_singleton_self _)) rfl
      (.here (List.mem_singleton_self _) (List.mem_singleton_self _) rfl)
  obtain ⟨within, inside, -⟩ := group_of_source text source pattern inner read holds
  exact ⟨read, holds, within, inside⟩

end OpGrammar
