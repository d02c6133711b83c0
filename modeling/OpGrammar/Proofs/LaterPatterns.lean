import OpGrammar.Proofs.Completeness
import OpGrammar.Proofs.Places

/-!
# Matches and later patterns

A graph only grows, so a walk goes on as before except where a node has got an edge and the walk took
a group: there the edge comes first, and there is no way back. Everywhere else a later pattern can
only make a match longer.
-/

open StateTransition

namespace OpGrammar

variable {ν : Type}

namespace Graph

variable {graph graph' : Graph Group ν} {run : Group → Text → Option (Found Unit)}
  {place place' last : Place}

/-! ## A step in a graph that has grown -/

theorem Extends.valueAt? (grown : graph.Extends graph') {v : ν}
    (known : graph.valueAt? place = some v) : graph'.valueAt? place = some v := by
  obtain ⟨node, present, value⟩ := Option.bind_eq_some_iff.1 known
  obtain ⟨node', present', more⟩ := grown place.id node present
  rw [Graph.valueAt?, present']
  exact more.value v value

theorem Extends.edgeAt? (grown : graph.Extends graph') {next : Nat}
    (edge : graph.edgeAt? place = some next) : graph'.edgeAt? place = some next := by
  obtain ⟨node, present, leads⟩ := Option.bind_eq_some_iff.1 edge
  obtain ⟨c, first, leads⟩ := Option.bind_eq_some_iff.1 leads
  obtain ⟨node', present', more⟩ := grown place.id node present
  rw [Graph.edgeAt?, present', Option.bind_some, first]
  exact more.edge? c next leads

theorem advances_of_size_le (larger : graph.size ≤ graph'.size) {entered : List Nat} {text : Text}
    {hop : Hop Group} {found : Found Unit} (inside : hop.next < graph.size) :
    graph'.Advances entered text hop found ↔ graph.Advances entered text hop found := by
  have inside' : hop.next < graph'.size := by omega
  simp only [Advances, inside, inside', true_and]

theorem firstHop?_of_size_le (larger : graph.size ≤ graph'.size) (entered : List Nat) (text : Text)
    (hops : List (Hop Group)) (inside : ∀ hop ∈ hops, hop.next < graph.size) :
    graph'.firstHop? run entered text hops = graph.firstHop? run entered text hops := by
  induction hops with
  | nil => rfl
  | cons hop hops ih =>
    have first := inside hop List.mem_cons_self
    have rest := ih fun hop mem => inside hop (.tail _ mem)
    simp only [firstHop?, List.findSome?_cons, advances_of_size_le larger first] at rest ⊢
    rw [rest]

theorem Extends.hopAt? (proper : graph.Proper) (grown : graph.Extends graph')
    {taken : Hop Group × Found Unit} (hop : graph.hopAt? run place = some taken) :
    graph'.hopAt? run place = some taken := by
  obtain ⟨node, present, first⟩ := Option.bind_eq_some_iff.1 hop
  obtain ⟨node', present', more⟩ := grown place.id node present
  -- New hops stand after the old ones, so the first hop that can be taken is still the first.
  obtain ⟨added, hops⟩ := more.hops
  have same : graph'.firstHop? run place.entered place.rest node.hops =
      graph.firstHop? run place.entered place.rest node.hops :=
    firstHop?_of_size_le grown.size_le _ _ _
      fun hop mem => (proper.hop place.id node hop present mem).2
  rw [first] at same
  rw [Graph.hopAt?, present', Option.bind_some, ← hops, firstHop?, List.findSome?_append]
  rw [firstHop?] at same
  rw [same, Option.some_or]

/-- The same step is made in the later graph, unless the node has got an edge that comes first. -/
theorem Extends.next? (proper : graph.Proper) (grown : graph.Extends graph')
    (free : graph.edgeAt? place = none → graph'.edgeAt? place = none)
    (step : graph.next? run place = some place') : graph'.next? run place = some place' := by
  rcases next?_cases step with ⟨next, edge, rfl⟩ | ⟨hop, found, edge, taken, rfl⟩
  · exact next?_of_edge (grown.edgeAt? edge)
  · exact next?_of_hop (free edge) (grown.hopAt? proper taken)

/-! ## A walk in a graph that has grown -/

/-- Wherever the walk goes on by a group on its way to a place, the next character leads nowhere in
the later graph either. -/
def Spares (graph' graph : Graph Group ν) (run : Group → Text → Option (Found Unit))
    (place last : Place) : Prop :=
  ∀ place', Reaches (graph.next? run) place place' → Reaches₁ (graph.next? run) place' last →
    graph.edgeAt? place' = none → graph'.edgeAt? place' = none

theorem Spares.reaches (spares : graph'.Spares graph run place last) (proper : graph.Proper)
    (grown : graph.Extends graph') (comes : Reaches (graph.next? run) place last) :
    Reaches (graph'.next? run) place last := by
  induction comes using Relation.ReflTransGen.head_induction_on with
  | refl => exact .refl
  | head step rest ih =>
    have free := spares _ .refl (.head' step rest)
    exact .head (grown.next? proper free step) (ih fun later comes => spares later (.head step comes))

theorem Spares.exists_last (spares : graph'.Spares graph run place last) (proper : graph.Proper)
    (grown : graph.Extends graph') (ends : graph.Last run place last) :
    ∃ last', graph'.Last run place last' ∧ last'.rest <:+ last.rest := by
  obtain ⟨v, known⟩ := Option.isSome_iff_exists.1 ends.valued
  have comes := spares.reaches proper grown ends.comes
  have valued : (graph'.valueAt? last).isSome := by rw [grown.valueAt? known]; rfl
  obtain ⟨found, walked⟩ := Option.isSome_iff_exists.1 (walkAt_isSome comes valued)
  obtain ⟨last', ends', -, -⟩ := last_of_walkAt place found walked
  exact ⟨last', ends', rest_of_reaches (ends'.of_reaches comes valued)⟩

theorem spares_of_step
    (free : (graph.next? run place).isSome → graph.edgeAt? place = none → graph'.edgeAt? place = none)
    (rest : ∀ place', graph.next? run place = some place' → graph'.Spares graph run place' last) :
    graph'.Spares graph run place last := by
  intro place' comes goes
  rcases comes.cases_head with rfl | ⟨next, step, more⟩
  · obtain ⟨next, step, -⟩ := Relation.TransGen.head'_iff.1 goes
    exact free (Option.isSome_of_mem step)
  · exact rest next step place' more goes

theorem edge_of_hopless (hopless : ∀ (id : Nat) (node : Node Group ν), graph[id]? = some node →
    node.hops = []) (step : graph.next? run place = some place') :
    ∃ next, graph.edgeAt? place = some next ∧ place' = ⟨[next], next, place.rest.tail⟩ := by
  rcases next?_cases step with edge | ⟨hop, found, -, taken, -⟩
  · exact edge
  · obtain ⟨node, present, first⟩ := Option.bind_eq_some_iff.1 taken
    rw [hopless place.id node present] at first
    cases first

theorem spares_of_hopless (hopless : ∀ (id : Nat) (node : Node Group ν), graph[id]? = some node →
    node.hops = []) : graph'.Spares graph run place last := by
  intro place' _ goes edge
  obtain ⟨next, step, -⟩ := Relation.TransGen.head'_iff.1 goes
  obtain ⟨next, edge', -⟩ := edge_of_hopless hopless step
  cases edge.symm.trans edge'

end Graph

namespace Lexicon

/-- A match is there after any later entries, and is not shorter, if no node at which its walk took a
group on the way to the end of the match has got an edge for the character that came next. Where there
are plain patterns only, the walk took no group. -/
theorem match_kept (entries later : List (Entry ν)) (input : Text) (m : Match ν)
    (h : (ofEntries entries).longest? input = some m)
    (spares : AllPlain entries ∨ ∀ last,
      (ofEntries entries).graph.Last Group.run (.start input) last →
      (ofEntries (entries ++ later)).graph.Spares (ofEntries entries).graph Group.run
        (.start input) last) :
    ∃ m', (ofEntries (entries ++ later)).longest? input = some m' ∧ m.text <+: m'.text := by
  obtain ⟨last, ends, -, split⟩ := longest?_last h
  have spares : (ofEntries (entries ++ later)).graph.Spares (ofEntries entries).graph Group.run
      (.start input) last :=
    spares.elim (fun plain => Graph.spares_of_hopless (hopless_of_allPlain entries plain))
      (fun spares => spares last ends)
  obtain ⟨last', ends', shorter⟩ :=
    spares.exists_last (ofEntries_proper entries) (ofEntries_extends entries later) ends
  obtain ⟨v, known⟩ := Option.isSome_iff_exists.1 ends'.valued
  obtain ⟨m', found, -, split'⟩ := longest?_of_last ends' known
  obtain ⟨more, rest⟩ := shorter
  refine ⟨m', found, more, ?_⟩
  rw [← rest, ← split', ← List.append_assoc] at split
  exact List.append_cancel_right split

theorem match_kept_letters :
    ∃ m', (ofEntries ([.pattern "(a)b".toList 1] ++ [.pattern "(a)bc".toList 2])).longest?
      "abc".toList = some m' ∧ "ab".toList <+: m'.text := by
  refine match_kept [.pattern "(a)b".toList 1] [.pattern "(a)bc".toList 2] "abc".toList
    ⟨"ab".toList, 1, []⟩ (by decide +kernel) (.inr fun last _ => ?_)
  refine Graph.spares_of_step (by decide +kernel) fun place step => ?_
  obtain rfl : ⟨[1], 1, "bc".toList⟩ = place := Option.some.inj (.trans (by decide +kernel) step)
  refine Graph.spares_of_step (by decide +kernel) fun place step => ?_
  obtain rfl : ⟨[2], 2, "c".toList⟩ = place := Option.some.inj (.trans (by decide +kernel) step)
  refine Graph.spares_of_step (by decide +kernel) fun place step => ?_
  cases (show Graph.next? Group.run _ ⟨[2], 2, "c".toList⟩ = none by decide +kernel).symm.trans step

/-- A pattern that begins with a character takes a match away that begins with a group. -/
theorem match_not_kept :
    ¬∀ (entries : List (Entry Nat)) (text : Text) (value : Nat) (input : Text) (m : Match Nat),
      (ofEntries entries).Accepts (.pattern text value) →
      (ofEntries entries).longest? input = some m →
      ∃ m', (ofEntries (entries ++ [.pattern text value])).longest? input = some m' ∧
        m.text.length ≤ m'.text.length := by
  intro all
  obtain ⟨m', found, -⟩ := all [.pattern "(a)b".toList 1] "ac".toList 2 "ab".toList
    ⟨"ab".toList, 1, []⟩ (by decide +kernel) (by decide +kernel)
  have none : (ofEntries ([.pattern "(a)b".toList 1] ++ [.pattern "ac".toList 2])).longest?
      "ab".toList = none := by decide +kernel
  rw [none] at found
  cases found

end Lexicon

end OpGrammar
