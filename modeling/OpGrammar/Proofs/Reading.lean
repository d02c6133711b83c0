import Mathlib.Data.List.TakeWhile
import OpGrammar.Pattern.Reader

/-!
# How a pattern is read

`Reads` is the reader as a relation, one rule for each thing that a text can start with. A reading
depends on nothing behind its end, so the text of a group, read by itself, gives the inside of the
group again.
-/

namespace OpGrammar

/-! ## The reader as a relation -/

/-- The text starts with the branches, and the second text follows them. -/
inductive Reads : Bool → Text → Pattern → Text → Prop
  | nil (inGroup : Bool) : Reads inGroup [] [[]] []
  | bar {inGroup : Bool} {rest after : Text} {branches : Pattern}
    (more : Reads inGroup rest branches after) :
    Reads inGroup ('|' :: rest) ([] :: branches) after
  | close (rest : Text) : Reads true (')' :: rest) [[]] (')' :: rest)
  | group {inGroup : Bool} {rest after last : Text} {d : Char} {inner branches : Pattern}
    (inside : Reads true rest inner (d :: after))
    (more : Reads inGroup (readQuantifier after).2 branches last) :
    Reads inGroup ('(' :: rest) (branches.consPiece
      ⟨.group (rest.take (rest.length - (d :: after).length)) inner, (readQuantifier after).1⟩) last
  | atom {inGroup : Bool} {c : Char} {rest last : Text} {atom : Atom} {left : Remainder rest}
    {branches : Pattern} (bar : c ≠ '|') (opening : c ≠ '(') (stays : ¬(inGroup ∧ c = ')'))
    (first : readAtom c rest = .ok (atom, left))
    (more : Reads inGroup (readQuantifier left).2 branches last) :
    Reads inGroup (c :: rest) (branches.consPiece ⟨atom, (readQuantifier left).1⟩) last

/-- The branches that a text starts with and the text after them. -/
def readParts (inGroup : Bool) (text : Text) : Except PatternError (Pattern × Text) :=
  (readBranches inGroup text).map fun read => (read.1, read.2.1)

def readMore (inGroup : Bool) (atom : Atom) (left : Text) : Except PatternError (Pattern × Text) :=
  (readParts inGroup (readQuantifier left).2).map fun read =>
    (read.1.consPiece ⟨atom, (readQuantifier left).1⟩, read.2)

theorem readParts_nil (inGroup : Bool) : readParts inGroup [] = .ok ([[]], []) := by
  rw [readParts, readBranches]
  rfl

theorem readParts_bar (inGroup : Bool) (rest : Text) :
    readParts inGroup ('|' :: rest) =
      (readParts inGroup rest).map fun read => ([] :: read.1, read.2) := by
  rw [readParts, readBranches, readParts]
  cases readBranches inGroup rest <;> rfl

theorem readParts_close (rest : Text) : readParts true (')' :: rest) = .ok ([[]], ')' :: rest) := by
  rw [readParts, readBranches]
  · simp [Except.map]
  · decide

theorem readParts_group (inGroup : Bool) (rest : Text) :
    readParts inGroup ('(' :: rest) =
      (readParts true rest).bind fun read =>
        match read.2 with
        | [] => .error (.unclosedBracket ('(' :: rest))
        | d :: after => readMore inGroup
          (.group (rest.take (rest.length - (d :: after).length)) read.1) after := by
  rw [readParts, readBranches]
  · have stays : (inGroup && '(' == ')') = false := by simp
    simp only [stays, Bool.false_eq_true, if_false, if_true, readParts]
    rcases readBranches true rest with e | ⟨inner, _ | ⟨d, after⟩, short⟩
    · rfl
    · rfl
    · simp only [readMore, readParts, bind, Except.bind, pure, Except.pure, Except.map]
      cases readBranches inGroup (readQuantifier after).2 <;> rfl
  · decide

theorem readParts_atom (inGroup : Bool) (c : Char) (rest : Text) (bar : c ≠ '|') (opening : c ≠ '(')
    (stays : ¬(inGroup ∧ c = ')')) :
    readParts inGroup (c :: rest) =
      (readAtom c rest).bind fun read => readMore inGroup read.1 read.2 := by
  rw [readParts, readBranches]
  · have stays' : (inGroup && c == ')') = false := by simpa using stays
    simp only [stays', Bool.false_eq_true, if_false, opening]
    rcases readAtom c rest with e | ⟨atom, left, short⟩
    · rfl
    · simp only [readMore, readParts, bind, Except.bind, pure, Except.pure, Except.map]
      cases readBranches inGroup (readQuantifier left).2 <;> rfl
  · exact fun same => bar same

theorem read_eq (text : Text) : Pattern.read text = (readParts false text).map (·.1) := by
  rw [Pattern.read, readParts]
  cases readBranches false text <;> rfl

theorem readParts_of_reads {inGroup : Bool} {text left : Text} {pattern : Pattern}
    (h : Reads inGroup text pattern left) : readParts inGroup text = .ok (pattern, left) := by
  induction h with
  | nil inGroup => exact readParts_nil inGroup
  | bar _ ih => rw [readParts_bar, ih]; rfl
  | close rest => exact readParts_close rest
  | group _ _ inner more =>
    rw [readParts_group, inner]
    simp only [Except.bind, readMore, more]
    rfl
  | atom bar opening stays first _ ih =>
    rw [readParts_atom _ _ _ bar opening stays, first]
    simp only [Except.bind, readMore, ih]
    rfl

theorem exists_of_map {α β ε : Type} {f : α → β} {x : Except ε α} {b : β} (h : x.map f = .ok b) :
    ∃ a, x = .ok a ∧ f a = b := by
  cases x with
  | error e => cases h
  | ok a => exact ⟨a, rfl, Except.ok.inj h⟩

theorem exists_of_bind {α β ε : Type} {f : α → Except ε β} {x : Except ε α} {b : β}
    (h : x.bind f = .ok b) : ∃ a, x = .ok a ∧ f a = .ok b := by
  cases x with
  | error e => cases h
  | ok a => exact ⟨a, rfl, h⟩

theorem length_of_readParts (inGroup : Bool) (text : Text) (pattern : Pattern) (left : Text)
    (h : readParts inGroup text = .ok (pattern, left)) : left.length ≤ text.length := by
  obtain ⟨⟨_, rest, short⟩, -, eq⟩ := exists_of_map h
  cases eq
  exact short

theorem reads_of_readParts (inGroup : Bool) (text : Text) (pattern : Pattern) (left : Text)
    (h : readParts inGroup text = .ok (pattern, left)) : Reads inGroup text pattern left := by
  induction n : text.length using Nat.strongRecOn generalizing inGroup text pattern left with
  | ind n ih =>
    subst n
    cases text with
    | nil =>
      rw [readParts_nil] at h
      cases h
      exact .nil inGroup
    | cons c rest =>
      by_cases bar : c = '|'
      · subst bar
        rw [readParts_bar] at h
        obtain ⟨⟨branches, after⟩, more, eq⟩ := exists_of_map h
        cases eq
        exact .bar (ih _ (Nat.lt_succ_self _) inGroup rest branches after more rfl)
      by_cases opening : c = '('
      · subst opening
        rw [readParts_group] at h
        obtain ⟨⟨inner, between⟩, inside, more⟩ := exists_of_bind h
        have shorter := length_of_readParts true rest inner between inside
        cases between with
        | nil => cases more
        | cons d after =>
          obtain ⟨⟨branches, last⟩, later, eq⟩ := exists_of_map more
          cases eq
          have short : ((readQuantifier after).2 : Text).length < ('(' :: rest).length := by
            have := (readQuantifier after).2.2
            simp only [List.length_cons] at shorter ⊢
            omega
          have inside' := ih _ (Nat.lt_succ_self _) true rest inner (d :: after) inside rfl
          exact .group inside' (ih _ short inGroup _ branches last later rfl)
      by_cases closing : inGroup ∧ c = ')'
      · obtain ⟨rfl, rfl⟩ := closing
        rw [readParts_close] at h
        cases h
        exact .close rest
      · rw [readParts_atom inGroup c rest bar opening closing] at h
        obtain ⟨⟨atom, next⟩, first, more⟩ := exists_of_bind h
        obtain ⟨⟨branches, last⟩, later, eq⟩ := exists_of_map more
        cases eq
        have short : ((readQuantifier next).2 : Text).length < (c :: rest).length :=
          Nat.lt_succ_of_le (Nat.le_trans (readQuantifier next).2.2 next.2)
        exact .atom bar opening closing first (ih _ short inGroup _ branches last later rfl)

theorem reads_of_read {text : Text} {pattern : Pattern} (h : Pattern.read text = .ok pattern) :
    ∃ left, Reads false text pattern left := by
  rw [read_eq] at h
  obtain ⟨⟨_, left⟩, read, rfl⟩ := exists_of_map h
  exact ⟨left, reads_of_readParts false text _ left read⟩

theorem read_of_reads {text left : Text} {pattern : Pattern} (h : Reads false text pattern left) :
    Pattern.read text = .ok pattern := by
  rw [read_eq, readParts_of_reads h]
  rfl

/-! ## What a reading depends on -/

theorem Reads.left {inGroup : Bool} {text left : Text} {pattern : Pattern}
    (h : Reads inGroup text pattern left) :
    left = [] ∨ inGroup ∧ ∃ after, left = ')' :: after := by
  induction h with
  | nil => exact Or.inl rfl
  | bar _ ih => exact ih
  | close rest => exact Or.inr ⟨rfl, rest, rfl⟩
  | group _ _ _ ih => exact ih
  | atom _ _ _ _ _ ih => exact ih

theorem readClassChars_local {opening text : Text} {chars : List ClassChar} {after : Text}
    (h : readClassChars opening text = .ok (chars, after)) :
    ∃ used, text = used ++ after ∧
      ∀ opening' tail, readClassChars opening' (used ++ tail) = .ok (chars, tail) := by
  fun_induction readClassChars opening text generalizing chars after with
  | case1 | case3 | case5 => cases h
  | case2 rest =>
    cases h
    exact ⟨[']'], rfl, fun opening' tail => by simp [readClassChars]⟩
  | case4 c rest sign ih =>
    obtain ⟨chars', read, rfl⟩ := exists_of_map_cons h
    obtain ⟨used, rfl, again⟩ := ih read
    refine ⟨'\\' :: c :: used, rfl, fun opening' tail => ?_⟩
    rw [List.cons_append, List.cons_append, readClassChars, if_pos sign, again]
    rfl
  | case6 c rest closing escape escape' ih =>
    obtain ⟨chars', read, rfl⟩ := exists_of_map_cons h
    obtain ⟨used, rfl, again⟩ := ih read
    refine ⟨c :: used, rfl, fun opening' tail => ?_⟩
    have plain : c ≠ '\\' := by
      intro same
      cases whole : used ++ after with
      | nil => exact escape same whole
      | cons d more => exact escape' d more same whole
    rw [List.cons_append, readClassChars, again]
    · rfl
    · exact closing
    · exact fun same => absurd same plain
    · exact fun _ _ same => absurd same plain

theorem classItems_source {source : Text} {chars : List ClassChar} {items : List ClassItem}
    (h : classItems source chars = .ok items) (source' : Text) :
    classItems source' chars = .ok items := by
  fun_induction classItems source chars generalizing items with
  | case1 | case3 | case4 | case6 => cases h
  | case2 c d e rest dash plain ih =>
    obtain ⟨items', read, rfl⟩ := exists_of_map h
    rw [classItems, if_neg dash, if_pos plain, ih read]
    rfl
  | case5 c d e rest dash range dash' order ih =>
    obtain ⟨items', read, rfl⟩ := exists_of_map h
    rw [classItems, if_neg dash, if_neg range, if_neg dash', if_neg order, ih read]
    rfl
  | case7 c rest short dash ih =>
    obtain ⟨items', read, rfl⟩ := exists_of_map h
    rw [classItems, if_neg dash, ih read]
    · rfl
    · exact short
  | case8 =>
    cases h
    rfl

theorem readClass_eq_ok {rest : Text} {items : List ClassItem} {after : Text} :
    readClass rest = .ok (items, after) ↔ ∃ chars source,
      readClassChars ('[' :: rest) rest = .ok (chars, after) ∧ chars ≠ [] ∧
        classItems source chars = .ok items := by
  unfold readClass
  constructor
  · intro h
    obtain ⟨⟨chars, left⟩, read, h⟩ := exists_of_bind h
    dsimp only at h
    split at h
    · cases h
    · rename_i some
      obtain ⟨items', formed, eq⟩ := exists_of_bind h
      cases eq
      refine ⟨chars, _, read, fun none => ?_, formed⟩
      subst none
      exact some rfl
  · rintro ⟨chars, source, read, some, formed⟩
    have some' : chars.isEmpty = false := by simpa using some
    simp only [bind, Except.bind, read, some', Bool.false_eq_true, if_false, pure, Except.pure]
    rw [classItems_source formed]

theorem readClass_local {rest : Text} {items : List ClassItem} {after : Text}
    (h : readClass rest = .ok (items, after)) :
    ∃ used, rest = used ++ after ∧ ∀ tail, readClass (used ++ tail) = .ok (items, tail) := by
  obtain ⟨chars, source, read, some, formed⟩ := readClass_eq_ok.1 h
  obtain ⟨used, rfl, again⟩ := readClassChars_local read
  exact ⟨used, rfl, fun tail => readClass_eq_ok.2 ⟨chars, source, again _ tail, some, formed⟩⟩

theorem classItems_some {source : Text} {chars : List ClassChar} {items : List ClassItem}
    (h : classItems source chars = .ok items) (some : chars ≠ []) :
    ∃ item ∈ items, ∃ c, item.contains c := by
  have single (c : Char) : (ClassItem.single c).contains c := beq_self_eq_true c
  fun_cases classItems source chars with
  | case1 | case3 | case4 | case6 => simp_all [classItems]
  | case2 c d e rest dash plain =>
    rw [classItems, if_neg dash, if_pos plain] at h
    obtain ⟨items', -, rfl⟩ := exists_of_map h
    exact ⟨_, List.mem_cons_self, c.char, single c.char⟩
  | case5 c d e rest dash range dash' order =>
    rw [classItems, if_neg dash, if_neg range, if_neg dash', if_neg order] at h
    obtain ⟨items', -, rfl⟩ := exists_of_map h
    refine ⟨_, List.mem_cons_self, c.char, ?_⟩
    simpa [ClassItem.contains] using order
  | case7 c rest short dash =>
    rw [classItems, if_neg dash] at h
    · obtain ⟨items', -, rfl⟩ := exists_of_map h
      exact ⟨_, List.mem_cons_self, c.char, single c.char⟩
    · exact short
  | case8 => exact absurd rfl some

theorem readAtom_cases {c : Char} {rest : Text} {atom : Atom} {left : Remainder rest}
    (h : readAtom c rest = .ok (atom, left)) :
    (∃ items, c = '[' ∧ atom = .oneOf items ∧ readClass rest = .ok (items, left)) ∨
    (c = '{' ∧ ∃ reference, rest.takeWhile (· != '}') = reference ∧
      rest.dropWhile (· != '}') = '}' :: left ∧ referenceOf reference = .ok atom) ∨
    (∃ d, c = '\\' ∧ rest = d :: left ∧ d ∈ patternSigns ∧ atom = .char d) ∨
    c ≠ '[' ∧ c ≠ '{' ∧ c ≠ '\\' ∧ left.1 = rest ∧ atom = .char c := by
  unfold readAtom at h
  split at h
  · split at h
    · cases h
    · rename_i items after read
      cases h
      exact Or.inl ⟨items, rfl, rfl, read⟩
  · right
    left
    refine ⟨rfl, _, rfl, ?_⟩
    unfold readReference at h
    split at h
    · cases h
    · rename_i d after found
      obtain ⟨atom', read, eq⟩ := exists_of_bind h
      cases eq
      have closing := List.head?_dropWhile_not (· != '}') rest
      simp only [found, List.head?_cons, bne_eq_false_iff_eq] at closing
      subst closing
      exact ⟨found, read⟩
  · right
    right
    left
    cases rest with
    | nil => cases h
    | cons d after =>
      unfold readEscaped at h
      dsimp only at h
      split at h
      · rename_i sign
        cases h
        exact ⟨d, rfl, rfl, sign, rfl⟩
      · cases h
  · rename_i bracket brace escape
    cases h
    exact Or.inr (Or.inr (Or.inr ⟨bracket, brace, escape, rfl, rfl⟩))

theorem readAtom_class {rest after : Text} {items : List ClassItem}
    (h : readClass rest = .ok (items, after)) :
    ∃ left, readAtom '[' rest = .ok (.oneOf items, left) ∧ left.1 = after := by
  simp only [readAtom]
  split
  · rename_i e failed
    cases h.symm.trans failed
  · rename_i items' after' read
    cases h.symm.trans read
    exact ⟨_, rfl, rfl⟩

theorem readAtom_plain {c : Char} (bracket : c ≠ '[') (brace : c ≠ '{') (escape : c ≠ '\\')
    (rest : Text) : readAtom c rest = .ok (.char c, ⟨rest, Nat.le_refl _⟩) := by
  unfold readAtom
  split
  · exact absurd rfl bracket
  · exact absurd rfl brace
  · exact absurd rfl escape
  · rfl

/-- Where an atom ends does not depend on what follows it. -/
theorem readAtom_local {c : Char} {rest : Text} {atom : Atom} {left : Remainder rest}
    (h : readAtom c rest = .ok (atom, left)) :
    ∃ used, rest = used ++ left.1 ∧
      ∀ tail, ∃ left', readAtom c (used ++ tail) = .ok (atom, left') ∧ left'.1 = tail := by
  rcases readAtom_cases h with ⟨items, rfl, rfl, read⟩ | ⟨rfl, reference, name, found, read⟩ |
    ⟨d, rfl, eq, sign, rfl⟩ | ⟨bracket, brace, escape, eq, rfl⟩
  · obtain ⟨used, eq, again⟩ := readClass_local read
    exact ⟨used, eq, fun tail => readAtom_class (again tail)⟩
  · have whole := List.takeWhile_append_dropWhile (p := (· != '}')) (l := rest)
    rw [name, found] at whole
    refine ⟨reference ++ ['}'], by simpa using whole.symm, fun tail => ?_⟩
    have inside : ∀ d ∈ reference, (d != '}') = true := by
      rw [← name]
      exact fun d mem => List.mem_takeWhile_imp (p := (· != '}')) mem
    have found' : (reference ++ ['}'] ++ tail).dropWhile (· != '}') = '}' :: tail := by
      rw [List.append_assoc, List.dropWhile_append_of_pos inside]
      rfl
    have name' : (reference ++ ['}'] ++ tail).takeWhile (· != '}') = reference := by
      rw [List.append_assoc, List.takeWhile_append_of_pos inside]
      simp
    simp only [readAtom, readReference]
    split
    · rename_i none
      cases found'.symm.trans none
    · rename_i d after found''
      cases found'.symm.trans found''
      simp only [name', read]
      exact ⟨_, rfl, rfl⟩
  · refine ⟨[d], eq, fun tail => ?_⟩
    simp only [readAtom, readEscaped, List.cons_append, List.nil_append, sign, if_true]
    exact ⟨_, rfl, rfl⟩
  · exact ⟨[], eq.symm, fun tail => ⟨_, readAtom_plain bracket brace escape _, rfl⟩⟩

/-- What can follow the last piece of some branches, inside of a group or not. -/
def Stops (inGroup : Bool) (left : Text) : Prop :=
  left = [] ∨ inGroup ∧ ∃ after, left = ')' :: after

theorem readQuantifier_once (text : Text)
    (plain : ∀ c rest, text = c :: rest → c ≠ '?' ∧ c ≠ '+' ∧ c ≠ '*') :
    (readQuantifier text).1 = .once ∧ (readQuantifier text).2.1 = text := by
  unfold readQuantifier
  split
  · exact absurd rfl (plain _ _ rfl).1
  · exact absurd rfl (plain _ _ rfl).2.1
  · exact absurd rfl (plain _ _ rfl).2.2
  · exact ⟨rfl, rfl⟩

theorem readQuantifier_local (after : Text) :
    ∃ sign, after = sign ++ (readQuantifier after).2.1 ∧
      ∀ inGroup more tail, (readQuantifier after).2.1 = more ++ tail →
        ∀ left, Stops inGroup left →
          (readQuantifier (sign ++ (more ++ left))).1 = (readQuantifier after).1 ∧
            (readQuantifier (sign ++ (more ++ left))).2.1 = more ++ left := by
  unfold readQuantifier
  split
  · exact ⟨['?'], rfl, fun _ _ _ _ _ _ => ⟨rfl, rfl⟩⟩
  · exact ⟨['+'], rfl, fun _ _ _ _ _ _ => ⟨rfl, rfl⟩⟩
  · exact ⟨['*'], rfl, fun _ _ _ _ _ _ => ⟨rfl, rfl⟩⟩
  · rename_i optional plus star
    refine ⟨[], rfl, fun inGroup more tail eq left stops => readQuantifier_once _ ?_⟩
    intro c rest whole
    cases more with
    | nil =>
      rcases stops with rfl | ⟨-, after', rfl⟩
      · cases whole
      · cases whole
        decide
    | cons d more =>
      obtain rfl : d = c := (List.cons.inj whole).1
      have eq : after = d :: (more ++ tail) := eq
      refine ⟨?_, ?_, ?_⟩
      · rintro rfl
        exact optional _ eq
      · rintro rfl
        exact plus _ eq
      · rintro rfl
        exact star _ eq

theorem Reads.local {inGroup : Bool} {text left : Text} {pattern : Pattern}
    (h : Reads inGroup text pattern left) :
    ∃ used, text = used ++ left ∧ ∀ (inGroup' : Bool) left', (inGroup' → inGroup) →
      Stops inGroup' left' → Reads inGroup' (used ++ left') pattern left' := by
  induction h with
  | nil inGroup =>
    refine ⟨[], rfl, fun inGroup' left' within stops => ?_⟩
    rcases stops with rfl | ⟨rfl, after, rfl⟩
    · exact .nil inGroup'
    · exact .close after
  | bar _ ih =>
    obtain ⟨used, rfl, again⟩ := ih
    exact ⟨'|' :: used, rfl, fun inGroup' left' within stops => .bar (again _ _ within stops)⟩
  | close rest =>
    refine ⟨[], rfl, fun inGroup' left' within stops => ?_⟩
    rcases stops with rfl | ⟨rfl, after, rfl⟩
    · exact .nil inGroup'
    · exact .close after
  | @group inGroup rest after last d inner branches inside _ ih₁ ih₂ =>
    obtain ⟨used, rfl, again⟩ := ih₁
    obtain ⟨used', eq, again'⟩ := ih₂
    obtain ⟨sign, eq', quantifier⟩ := readQuantifier_local after
    obtain rfl : d = ')' := by
      rcases inside.left with none | ⟨-, _, some⟩
      · cases none
      · exact (List.cons.inj some).1
    refine ⟨'(' :: (used ++ ')' :: (sign ++ used')), ?_, fun inGroup' left' within stops => ?_⟩
    · simp only [List.cons_append, List.append_assoc]
      rw [← eq, ← eq']
    · have inside' := again true (')' :: (sign ++ (used' ++ left'))) (fun _ => rfl)
        (Or.inr ⟨rfl, _, rfl⟩)
      obtain ⟨same, rest⟩ := quantifier inGroup' used' last eq left' stops
      have more := again' inGroup' left' within stops
      rw [← rest] at more
      have whole := Reads.group inside' more
      simp only [same, List.length_append, Nat.add_sub_cancel, List.take_left'] at whole ⊢
      simpa using whole
  | @atom inGroup c rest last atom left branches bar opening stays first _ ih =>
    obtain ⟨used, eq, again⟩ := readAtom_local first
    obtain ⟨used', eq', again'⟩ := ih
    obtain ⟨sign, eq'', quantifier⟩ := readQuantifier_local left.1
    refine ⟨c :: (used ++ (sign ++ used')), ?_, fun inGroup' left' within stops => ?_⟩
    · simp only [List.cons_append, List.append_assoc]
      rw [← eq', ← eq'', ← eq]
    · obtain ⟨left'', first', here⟩ := again (sign ++ (used' ++ left'))
      obtain ⟨same, rest⟩ := quantifier inGroup' used' last eq' left' stops
      have more := again' inGroup' left' within stops
      rw [← rest, ← here] at more
      have whole : Reads inGroup' _ _ left' := Reads.atom bar opening
        (fun closing => stays ⟨within closing.1, closing.2⟩) first' more
      rw [here, same] at whole
      simpa using whole

theorem Reads.source {rest after : Text} {d : Char} {inner : Pattern}
    (inside : Reads true rest inner (d :: after)) :
    Pattern.read (rest.take (rest.length - (d :: after).length)) = .ok inner := by
  obtain ⟨used, rfl, again⟩ := inside.local
  have whole := again false [] (fun closing => by cases closing) (Or.inl rfl)
  rw [List.append_nil] at whole
  rw [List.length_append, Nat.add_sub_cancel, List.take_left' rfl]
  exact read_of_reads whole

/-! ## Atoms as they are read -/

/-- An atom as it is read: a class is not empty, and the text of a group is read as its inside. -/
inductive Atom.WellRead : Atom → Prop
  | char (c : Char) : WellRead (.char c)
  | oneOf (items : List ClassItem) (some : ∃ item ∈ items, ∃ c, item.contains c) :
    WellRead (.oneOf items)
  | group (source : Text) (inner : Pattern) (read : Pattern.read source = .ok inner)
    (parts : ∀ branch ∈ inner, ∀ piece ∈ branch, piece.atom.WellRead) :
    WellRead (.group source inner)
  | reference (label : Option Text) (name : Text) : WellRead (.reference label name)

/-- All atoms of the pattern are as they are read. -/
def Pattern.WellRead (pattern : Pattern) : Prop :=
  ∀ branch ∈ pattern, ∀ piece ∈ branch, piece.atom.WellRead

theorem referenceOf_eq {reference : Text} {atom : Atom} (h : referenceOf reference = .ok atom) :
    ∃ label name, atom = .reference label name := by
  unfold referenceOf at h
  split at h
  · split at h
    · cases h
      exact ⟨none, reference, rfl⟩
    · cases h
  · dsimp only at h
    split at h
    · cases h
      exact ⟨_, _, rfl⟩
    · cases h

theorem readAtom_wellRead {c : Char} {rest : Text} {atom : Atom} {left : Remainder rest}
    (h : readAtom c rest = .ok (atom, left)) : atom.WellRead := by
  rcases readAtom_cases h with ⟨items, -, rfl, read⟩ | ⟨-, reference, -, -, read⟩ |
    ⟨d, -, -, -, rfl⟩ | ⟨-, -, -, -, rfl⟩
  · obtain ⟨chars, source, -, some, formed⟩ := readClass_eq_ok.1 read
    exact .oneOf items (classItems_some formed some)
  · obtain ⟨label, name, rfl⟩ := referenceOf_eq read
    exact .reference label name
  · exact .char d
  · exact .char c

theorem wellRead_consPiece {branches : Pattern} {piece : Piece Atom} (well : branches.WellRead)
    (first : piece.atom.WellRead) : Pattern.WellRead (branches.consPiece piece) := by
  cases branches with
  | nil => simpa [Pattern.WellRead, Branches.consPiece] using first
  | cons branch branches =>
    simp only [Pattern.WellRead, Branches.consPiece, List.forall_mem_cons] at well ⊢
    exact ⟨⟨first, well.1⟩, well.2⟩

theorem Reads.wellRead {inGroup : Bool} {text left : Text} {pattern : Pattern}
    (h : Reads inGroup text pattern left) : pattern.WellRead := by
  induction h with
  | nil | close => simp [Pattern.WellRead]
  | bar _ ih => simpa [Pattern.WellRead] using ih
  | group inside _ ih₁ ih₂ => exact wellRead_consPiece ih₂ (.group _ _ inside.source ih₁)
  | atom _ _ _ first _ ih => exact wellRead_consPiece ih (readAtom_wellRead first)

theorem wellRead_of_read {text : Text} {pattern : Pattern} (h : Pattern.read text = .ok pattern) :
    pattern.WellRead := by
  obtain ⟨left, reads⟩ := reads_of_read h
  exact reads.wellRead

end OpGrammar
