import OpGrammar.Lexicon.Basic

/-!
# Captures

A walk makes a capture where it goes through a labelled group, with those inside the group right
after it. So captures are in the order of their starts, and the later one of two lies inside of the
earlier one or behind it.
-/

namespace OpGrammar

/-! ## Spans -/

/-- The second span starts no earlier, and lies inside of the first or behind it. -/
def Span.Precedes (span later : Span) : Prop :=
  span.start ≤ later.start ∧ (later.stop ≤ span.stop ∨ span.stop ≤ later.start)

/-- The spans lie within so many characters, in their order, and no two of them cross. -/
structure Nested (length : Nat) (spans : List Span) : Prop where
  within : ∀ span ∈ spans, span.start ≤ span.stop ∧ span.stop ≤ length
  order : spans.Pairwise Span.Precedes

theorem nested_nil (length : Nat) : Nested length [] :=
  ⟨List.forall_mem_nil _, .nil⟩

theorem Span.Precedes.shift {span later : Span} (precedes : span.Precedes later) (n : Nat) :
    (span.shift n).Precedes (later.shift n) := by
  simp only [Span.Precedes, Span.shift] at precedes ⊢
  omega

theorem Nested.append {m n : Nat} {spans later : List Span} (first : Nested m spans)
    (second : Nested n later) : Nested (m + n) (spans ++ later.map (·.shift m)) := by
  refine ⟨fun span mem => ?_, List.pairwise_append.2 ⟨first.order, ?_, ?_⟩⟩
  · rcases List.mem_append.1 mem with mem | mem
    · have := first.within span mem
      omega
    · obtain ⟨span', mem', rfl⟩ := List.mem_map.1 mem
      have := second.within span' mem'
      simp only [Span.shift]
      omega
  · exact second.order.map _ fun _ _ precedes => precedes.shift m
  · -- What is read first ends where what is read then starts.
    intro span mem span' mem'
    obtain ⟨span'', -, rfl⟩ := List.mem_map.1 mem'
    have := first.within span mem
    simp only [Span.Precedes, Span.shift]
    omega

theorem Nested.hop {γ : Type} {hop : Hop γ} {found : Found Unit}
    (nested : Nested found.length found.spans) : Nested found.length (hop.spans found) := by
  unfold Hop.spans
  cases hop.label with
  | none => exact nested
  | some label =>
    refine ⟨List.forall_mem_cons.2 ⟨⟨Nat.zero_le _, Nat.le_refl _⟩, nested.within⟩,
      .cons ?_ nested.order⟩
    intro span mem
    exact ⟨Nat.zero_le _, .inl (nested.within span mem).2⟩

/-! ## What a walk finds -/

variable {ν : Type}

/-- So much of the text is there, and the spans are nested in it. -/
structure Found.Fits (text : Text) (found : Found ν) : Prop where
  length : found.length ≤ text.length
  spans : Nested found.length found.spans

theorem Found.fits_here (text : Text) (value : ν) : (Found.here value).Fits text :=
  ⟨Nat.zero_le _, nested_nil _⟩

theorem Found.Fits.after {text : Text} {n : Nat} {spans : List Span} {found : Found ν}
    (inside : n ≤ text.length) (nested : Nested n spans) (fits : found.Fits (text.drop n)) :
    (found.after n spans).Fits text := by
  refine ⟨?_, nested.append fits.spans⟩
  have := fits.length
  simp only [List.length_drop, Found.after] at this ⊢
  omega

theorem Graph.walk_fits {graph : Graph Group ν}
    (groups : ∀ node ∈ graph, ∀ hop ∈ node.hops, ∀ text, ∀ found ∈ hop.group.run text,
      found.Fits text)
    (entered : List Nat) (id : Nat) (text : Text) :
    ∀ found ∈ graph.walk Group.run entered id text, found.Fits text := by
  have here {text : Text} {value : Option ν} : ∀ found ∈ value.map Found.here, found.Fits text := by
    intro found mem
    obtain ⟨v, -, rfl⟩ := Option.map_eq_some_iff.1 mem
    exact Found.fits_here text v
  refine walk_induction
    (motive := fun _ _ text result => ∀ found ∈ result, found.Fits text) ?_ ?_ ?_ ?_ entered id text
  · intro entered id text _ found none
    cases none
  · intro entered id text node next _ edge ih found mem
    rcases Option.or_eq_some_iff.1 mem with further | ⟨-, mem⟩
    · obtain ⟨later, walked, rfl⟩ := Option.map_eq_some_iff.1 further
      obtain ⟨c, rest, -, rfl, -, -⟩ := exists_edge_of_head edge
      exact .after (by simp) (nested_nil 1) (ih later walked)
    · exact here found mem
  · intro entered id text node hop first present _ taken ih found mem
    rcases Option.or_eq_some_iff.1 mem with further | ⟨-, mem⟩
    · obtain ⟨later, walked, rfl⟩ := Option.map_eq_some_iff.1 further
      obtain ⟨among, ran, -⟩ := of_firstHop? taken
      have group := groups node (Array.mem_of_getElem? present) hop among text first ran
      exact .after group.length group.spans.hop (ih later walked)
    · exact here found mem
  · intro entered id text node _ _ _
    exact here

theorem Group.run_fits (group : Group) (text : Text) :
    ∀ found ∈ group.run text, found.Fits text := by
  induction group using Group.hops_induction generalizing text with
  | step group ih =>
    rw [run_eq]
    exact Graph.walk_fits ih [0] 0 text

/-! ## Captures of a match -/

theorem Text.byteSize_take_le {m n : Nat} (le : m ≤ n) (text : Text) :
    Text.byteSize (text.take m) ≤ Text.byteSize (text.take n) := by
  obtain ⟨more, eq⟩ := List.take_prefix_take_left (l := text) le
  rw [← eq, byteSize_append]
  exact Nat.le_add_right _ _

namespace Capture

/-- The capture has the text between its ends, and these are places between characters. -/
def Marks (capture : Capture) (text : Text) : Prop :=
  ∃ before after, text = before ++ capture.text ++ after ∧
    capture.start = Text.byteSize before ∧ capture.stop = Text.byteSize (before ++ capture.text)

/-- The captures have no byte in common. -/
def Apart (capture other : Capture) : Prop :=
  capture.stop ≤ other.start ∨ other.stop ≤ capture.start

/-- All of the first capture is in the second one. -/
def Inside (capture other : Capture) : Prop :=
  other.start ≤ capture.start ∧ capture.stop ≤ other.stop

end Capture

theorem Span.capture_marks {span : Span} (ordered : span.start ≤ span.stop) (text : Text) :
    (span.capture text).Marks text := by
  have whole : text.take span.start ++ (span.capture text).text = text.take span.stop := by
    have split := List.take_append_drop span.start (text.take span.stop)
    rwa [List.take_take, Nat.min_eq_left ordered] at split
  refine ⟨text.take span.start, text.drop span.stop, ?_, rfl, ?_⟩
  · rw [whole, List.take_append_drop]
  · rw [whole]
    rfl

/-- The captures of a match are parts of the text that it matches. They start one after the other,
and of two of them the later one is behind the earlier one or inside of it. -/
theorem Lexicon.captures_nested (lexicon : Lexicon ν) (input : Text) (m : Match ν)
    (matched : lexicon.longest? input = some m) :
    m.text <+: input ∧
      (∀ capture ∈ m.captures, capture.Marks input ∧ capture.start ≤ capture.stop ∧
        capture.stop ≤ Text.byteSize m.text) ∧
      m.captures.Pairwise fun capture later =>
        capture.start ≤ later.start ∧ (capture.Apart later ∨ later.Inside capture) := by
  obtain ⟨found, walked, rfl⟩ := Option.map_eq_some_iff.1 matched
  have fits := Graph.walk_fits (fun node _ hop _ => hop.group.run_fits) [0] 0 input found walked
  refine ⟨List.take_prefix _ _, fun capture mem => ?_, ?_⟩
  · obtain ⟨span, mem', rfl⟩ := List.mem_map.1 mem
    have within := fits.spans.within span mem'
    exact ⟨span.capture_marks within.1 input, Text.byteSize_take_le within.1 input,
      Text.byteSize_take_le within.2 input⟩
  · refine fits.spans.order.map _ fun span later ⟨starts, apart⟩ => ?_
    refine ⟨Text.byteSize_take_le starts input, ?_⟩
    rcases apart with inside | behind
    · exact .inr ⟨Text.byteSize_take_le starts input, Text.byteSize_take_le inside input⟩
    · exact .inl (.inl (Text.byteSize_take_le behind input))

/-- The point takes two bytes. The third number is read too, but the match ends before it. -/
theorem Lexicon.captures_nested_pair :
    let lexicon : Lexicon Nat := ofEntries [.meaning ['N'] "[0-9]+".toList,
      .meaning ['P'] "\x7bx:N\x7d,\x7by:N\x7d".toList,
      .pattern "·\x7bp:P\x7d".toList 1, .pattern "·\x7bp:P\x7d;\x7bz:N\x7d!".toList 2]
    let input : Text := "·1,23;4".toList
    let m : Match Nat := ⟨"·1,23".toList, 1,
      [⟨['p'], "1,23".toList, 2, 6⟩, ⟨['x'], ['1'], 2, 3⟩, ⟨['y'], "23".toList, 4, 6⟩]⟩
    lexicon.longest? input = some m ∧ m.text <+: input ∧
      (∀ capture ∈ m.captures, capture.Marks input) ∧
      m.captures.Pairwise fun capture later =>
        capture.start ≤ later.start ∧ (capture.Apart later ∨ later.Inside capture) := by
  intro lexicon input m
  have matched : lexicon.longest? input = some m := by decide +kernel
  obtain ⟨begins, parts, order⟩ := captures_nested lexicon input m matched
  exact ⟨matched, begins, fun capture mem => (parts capture mem).1, order⟩

end OpGrammar
