import Mathlib.Computability.StateTransition
import OpGrammar.Lexicon.Basic

/-!
# Places of a walk

A walk goes from place to place, and what it finds is the value at the last place that has one. So a
match is known by that place: `longest?_last` and `longest?_of_last` say this in both directions.
-/

open StateTransition

namespace OpGrammar

/-- Where a walk is: the nodes entered at this place, the last of them, and what is left to read. -/
structure Place where
  entered : List Nat
  id : Nat
  rest : Text
  deriving DecidableEq

def Place.start (text : Text) : Place := ⟨[0], 0, text⟩

namespace Graph

variable {γ ν : Type} (run : γ → Text → Option (Found Unit)) (graph : Graph γ ν)

abbrev walkAt (place : Place) : Option (Found ν) :=
  graph.walk run place.entered place.id place.rest

def edgeAt? (place : Place) : Option Nat :=
  graph[place.id]?.bind fun node => place.rest.head?.bind node.edge?

/-- The group that is tried with success if the next character leads nowhere. -/
def hopAt? (place : Place) : Option (Hop γ × Found Unit) :=
  graph[place.id]?.bind fun node => graph.firstHop? run place.entered place.rest node.hops

def next? (place : Place) : Option Place :=
  match graph.edgeAt? place with
  | some next => some ⟨[next], next, place.rest.tail⟩
  | none => (graph.hopAt? run place).map fun (hop, found) =>
    ⟨enter place.entered hop found, hop.next, place.rest.drop found.length⟩

def valueAt? (place : Place) : Option ν := graph[place.id]?.bind Node.value

variable {run graph} {place place' last : Place}

/-! ## One step -/

theorem next?_of_edge {next : Nat} (edge : graph.edgeAt? place = some next) :
    graph.next? run place = some ⟨[next], next, place.rest.tail⟩ := by
  simp only [next?, edge]

theorem next?_of_hop {hop : Hop γ} {found : Found Unit} (edge : graph.edgeAt? place = none)
    (taken : graph.hopAt? run place = some (hop, found)) : graph.next? run place =
      some ⟨enter place.entered hop found, hop.next, place.rest.drop found.length⟩ := by
  simp only [next?, edge, taken, Option.map_some]

theorem next?_cases (step : graph.next? run place = some place') :
    (∃ next, graph.edgeAt? place = some next ∧ place' = ⟨[next], next, place.rest.tail⟩) ∨
    ∃ hop found, graph.edgeAt? place = none ∧ graph.hopAt? run place = some (hop, found) ∧
      place' = ⟨enter place.entered hop found, hop.next, place.rest.drop found.length⟩ := by
  cases edge : graph.edgeAt? place with
  | some next =>
    rw [next?_of_edge edge] at step
    exact .inl ⟨next, rfl, (Option.some.inj step).symm⟩
  | none =>
    simp only [next?, edge] at step
    obtain ⟨⟨hop, found⟩, taken, rfl⟩ := Option.map_eq_some_iff.1 step
    exact .inr ⟨hop, found, rfl, taken, rfl⟩

theorem rest_of_next? (step : graph.next? run place = some place') :
    place'.rest <:+ place.rest := by
  rcases next?_cases step with ⟨next, -, rfl⟩ | ⟨hop, found, -, -, rfl⟩
  · exact List.tail_suffix _
  · exact List.drop_suffix _ _

theorem room_of_next? (step : graph.next? run place = some place') :
    graph.room place'.entered place'.rest < graph.room place.entered place.rest := by
  rcases next?_cases step with ⟨next, edge, rfl⟩ | ⟨hop, found, -, taken, rfl⟩
  · obtain ⟨node, -, leads⟩ := Option.bind_eq_some_iff.1 edge
    obtain ⟨c, first, -⟩ := Option.bind_eq_some_iff.1 leads
    obtain ⟨text, more⟩ := List.head?_eq_some_iff.1 first
    refine room_lt_of_length_lt _ _ _ ?_
    simp [more]
  · obtain ⟨node, -, first⟩ := Option.bind_eq_some_iff.1 taken
    exact room_lt_of_advances (advances_of_firstHop? first)

variable (run graph) in
theorem place_induction {motive : Place → Prop}
    (stop : ∀ place, graph.next? run place = none → motive place)
    (step : ∀ place place', graph.next? run place = some place' → motive place' → motive place)
    (place : Place) : motive place := by
  cases next : graph.next? run place with
  | none => exact stop place next
  | some place' => exact step place place' next (place_induction stop step place')
termination_by graph.room place.entered place.rest
decreasing_by exact room_of_next? next

theorem walkAt_stop (stop : graph.next? run place = none) :
    graph.walkAt run place = (graph.valueAt? place).map Found.here := by
  cases present : graph[place.id]? with
  | none =>
    rw [walkAt, walk_of_missing present, valueAt?, present]
    rfl
  | some node =>
    have edge : place.rest.head?.bind node.edge? = none := by
      cases leads : place.rest.head?.bind node.edge? with
      | none => rfl
      | some next =>
        have edge : graph.edgeAt? place = some next := by rw [edgeAt?, present]; exact leads
        rw [next?_of_edge edge] at stop
        cases stop
    have edge' : graph.edgeAt? place = none := by rw [edgeAt?, present]; exact edge
    have hops : graph.firstHop? run place.entered place.rest node.hops = none := by
      simpa [next?, edge', hopAt?, present] using stop
    rw [walkAt, walk_of_stop present edge hops, valueAt?, present]
    rfl

theorem walkAt_step (step : graph.next? run place = some place') :
    ∃ n spans, place'.rest = place.rest.drop n ∧ graph.walkAt run place =
      ((graph.walkAt run place').map (.after n spans)).or
        ((graph.valueAt? place).map Found.here) := by
  rcases next?_cases step with ⟨next, edge, rfl⟩ | ⟨hop, found, edge, taken, rfl⟩
  · obtain ⟨node, present, leads⟩ := Option.bind_eq_some_iff.1 edge
    refine ⟨1, [], List.drop_one.symm, ?_⟩
    rw [walkAt, walk_of_edge present leads, valueAt?, present]
    rfl
  · obtain ⟨node, present, first⟩ := Option.bind_eq_some_iff.1 taken
    rw [edgeAt?, present] at edge
    refine ⟨found.length, hop.spans found, rfl, ?_⟩
    rw [walkAt, walk_of_hop present edge first, valueAt?, present]
    rfl

/-! ## All steps -/

theorem rest_of_reaches (comes : Reaches (graph.next? run) place place') :
    place'.rest <:+ place.rest := by
  induction comes with
  | refl => exact List.suffix_rfl
  | tail _ step ih => exact (rest_of_next? step).trans ih

theorem walkAt_isSome (comes : Reaches (graph.next? run) place last)
    (valued : (graph.valueAt? last).isSome) : (graph.walkAt run place).isSome := by
  induction comes using Relation.ReflTransGen.head_induction_on with
  | refl =>
    cases next : graph.next? run last with
    | none => rw [walkAt_stop next, Option.isSome_map, valued]
    | some place' =>
      obtain ⟨n, spans, -, eq⟩ := walkAt_step next
      rw [eq, Option.isSome_or, Option.isSome_map, Option.isSome_map, valued, Bool.or_true]
  | head step _ ih =>
    obtain ⟨n, spans, -, eq⟩ := walkAt_step step
    rw [eq, Option.isSome_or, Option.isSome_map, ih, Bool.true_or]

variable (run graph) in
/-- The last place with a value that a walk comes to. -/
structure Last (place last : Place) : Prop where
  comes : Reaches (graph.next? run) place last
  valued : (graph.valueAt? last).isSome
  ended : ∀ later, Reaches₁ (graph.next? run) last later → graph.valueAt? later = none

theorem Last.of_reaches (found : graph.Last run place last)
    (comes : Reaches (graph.next? run) place place') (valued : (graph.valueAt? place').isSome) :
    Reaches (graph.next? run) place' last := by
  rcases reaches_total comes found.comes with before | after
  · exact before
  · rcases Relation.reflTransGen_iff_eq_or_transGen.1 after with same | after
    · rw [same]
      exact .refl
    · rw [found.ended place' after] at valued
      cases valued

theorem Last.unique (found : graph.Last run place last) (found' : graph.Last run place place') :
    last = place' := by
  have comes := found.of_reaches found'.comes found'.valued
  rcases Relation.reflTransGen_iff_eq_or_transGen.1 comes with same | after
  · exact same
  · have none := found'.ended last after
    rw [← Option.not_isSome_iff_eq_none] at none
    exact absurd found.valued none

theorem last_of_stop (comes : Reaches (graph.next? run) place last)
    (valued : (graph.valueAt? last).isSome) (stop : graph.next? run last = none) :
    graph.Last run place last := by
  refine ⟨comes, valued, fun later after => ?_⟩
  obtain ⟨next, step, -⟩ := Relation.TransGen.head'_iff.1 after
  rw [stop] at step
  cases step

theorem last_of_walkAt (place : Place) (found : Found ν)
    (walked : graph.walkAt run place = some found) :
    ∃ last, graph.Last run place last ∧ graph.valueAt? last = some found.value ∧
      last.rest = place.rest.drop found.length := by
  induction place using place_induction run graph generalizing found with
  | stop place stop =>
    rw [walkAt_stop stop] at walked
    obtain ⟨v, known, rfl⟩ := Option.map_eq_some_iff.1 walked
    exact ⟨place, last_of_stop .refl (by rw [known]; rfl) stop, known, rfl⟩
  | step place place' step ih =>
    obtain ⟨n, spans, rest, eq⟩ := walkAt_step step
    rw [eq] at walked
    rcases Option.or_eq_some_iff.1 walked with further | ⟨none, here⟩
    · obtain ⟨found', walked', rfl⟩ := Option.map_eq_some_iff.1 further
      obtain ⟨last, ends, known, rest'⟩ := ih found' walked'
      refine ⟨last, ⟨.head step ends.comes, ends.valued, ends.ended⟩, known, ?_⟩
      rw [rest', rest, List.drop_drop]
      rfl
    · obtain ⟨v, known, rfl⟩ := Option.map_eq_some_iff.1 here
      refine ⟨place, ⟨.refl, by rw [known]; rfl, fun later after => ?_⟩, known, rfl⟩
      -- A value further on would have been found.
      by_contra some
      have walked := walkAt_isSome (reaches₁_fwd after step) (Option.isSome_iff_ne_none.2 some)
      rw [Option.map_eq_none_iff.1 none] at walked
      cases walked

end Graph

namespace Lexicon

variable {ν : Type} {lexicon : Lexicon ν} {input : Text}

/-- A match ends at the last place with a value. -/
theorem longest?_last {m : Match ν} (h : lexicon.longest? input = some m) :
    ∃ last, lexicon.graph.Last Group.run (.start input) last ∧
      lexicon.graph.valueAt? last = some m.value ∧ m.text ++ last.rest = input := by
  obtain ⟨found, walked, rfl⟩ := Option.map_eq_some_iff.1 h
  obtain ⟨last, ends, known, rest⟩ := Graph.last_of_walkAt (.start input) found walked
  refine ⟨last, ends, known, ?_⟩
  rw [rest]
  exact List.take_append_drop _ _

theorem longest?_of_last {last : Place}
    (ends : lexicon.graph.Last Group.run (.start input) last) {v : ν}
    (known : lexicon.graph.valueAt? last = some v) :
    ∃ m, lexicon.longest? input = some m ∧ m.value = v ∧ m.text ++ last.rest = input := by
  obtain ⟨found, walked⟩ := Option.isSome_iff_exists.1 (Graph.walkAt_isSome ends.comes ends.valued)
  have matched : lexicon.longest? input = some (found.toMatch input) :=
    congrArg (Option.map (Found.toMatch input)) walked
  obtain ⟨last', ends', known', text⟩ := longest?_last matched
  obtain rfl := ends.unique ends'
  exact ⟨_, matched, Option.some.inj (known'.symm.trans known), text⟩

end Lexicon

end OpGrammar
