import OpGrammar.Proofs.Captures
import OpGrammar.Proofs.InnerGroups

/-!
# Executions come to an end

`execute` goes round after round as long as a node leads on, with a limit for the rounds and nothing
else that would make it stop. From some limit on the limit does not count: what comes out is what
the walk finds, and no node is entered twice at one place.
-/

namespace OpGrammar

variable {ν : Type}

/-- What one execution did: the nodes that it entered, each after its place, and what it found. -/
structure Trail (ν : Type) where
  entered : List (Nat × Nat)
  found : Option (Found ν)

/-- The trail of an execution that enters one more node first and reads so much there. -/
def Trail.behind (place id : Nat) (value : Option ν) (length : Nat) (spans : List Span)
    (trail : Trail ν) : Trail ν :=
  ⟨(place, id) :: trail.entered, (trail.found.map (.after length spans)).or (value.map .here)⟩

/-- A hop is not taken if it reads nothing and leads to where the execution was at this place. -/
def Hop.offer (hop : Hop Group) (stalled : List Nat) (found : Option (Found Unit)) :
    Option (Hop Group × Found Unit) :=
  found.bind fun found => if found.length = 0 ∧ hop.next ∈ stalled then none else some (hop, found)

namespace Graph

/-- Executes the graph from a node on. The nodes in `stalled` were entered at this place before. -/
def execute : (limit : Nat) → {ν : Type} → (graph : Graph Group ν) → (stalled : List Nat) →
    (place id : Nat) → Text → Option (Trail ν)
  | 0, _, _, _, _, _, _ => none
  | limit + 1, _, graph, stalled, place, id, text => do
    let node ← graph[id]?
    match text.head?.bind node.edge? with
    | some next =>
      let trail ← execute limit graph [] (place + 1) next text.tail
      return trail.behind place id node.value 1 []
    | none =>
      let stalled := id :: stalled
      let taken ← node.hops.findSomeM? fun hop =>
        (execute limit hop.group.graph [] 0 0 text).map fun trail => hop.offer stalled trail.found
      match taken with
      | none => return ⟨[(place, id)], node.value.map .here⟩
      | some (hop, found) =>
        let stalled := if found.length = 0 then stalled else []
        let trail ← execute limit graph stalled (place + found.length) hop.next
          (text.drop found.length)
        return trail.behind place id node.value found.length (hop.spans found)

/-- The execution comes to an end, and any more rounds change nothing. -/
def Ends (graph : Graph Group ν) (stalled : List Nat) (place id : Nat) (text : Text)
    (trail : Trail ν) : Prop :=
  ∃ limit, ∀ more ≥ limit, graph.execute more stalled place id text = some trail

/-- Every execution of the graph ends with what the walk finds, and enters no node twice at one
place. -/
def Stops (graph : Graph Group ν) : Prop :=
  ∀ text, ∃ trail, graph.Ends [] 0 0 text trail ∧ trail.entered.Nodup ∧
    trail.found = graph.walk Group.run [0] 0 text

/-! ## One round -/

theorem ends_of_next {graph : Graph Group ν} {stalled : List Nat} {place id : Nat} {text : Text}
    {trail : Trail ν} (limit : Nat)
    (next : ∀ more ≥ limit, graph.execute (more + 1) stalled place id text = some trail) :
    graph.Ends stalled place id text trail := by
  refine ⟨limit + 1, fun more enough => ?_⟩
  obtain ⟨more, rfl⟩ := Nat.exists_eq_add_one_of_ne_zero (n := more) (by omega)
  exact next more (by omega)

theorem exists_limit_findSomeM? {m : Type → Type} [Monad m] [LawfulMonad m] {α β : Type}
    {attempt : Nat → α → m (Option β)} {outcome : α → Option β} {row : List α}
    (ends : ∀ a ∈ row, ∃ limit, ∀ more ≥ limit, attempt more a = pure (outcome a)) :
    ∃ limit, ∀ more ≥ limit, row.findSomeM? (attempt more) = pure (row.findSome? outcome) := by
  induction row with
  | nil => exact ⟨0, fun _ _ => rfl⟩
  | cons a row ih =>
    obtain ⟨first, ended⟩ := ends a List.mem_cons_self
    obtain ⟨limit, rest⟩ := ih fun a mem => ends a (List.mem_cons_of_mem _ mem)
    refine ⟨max first limit, fun more enough => ?_⟩
    have ended := ended more (by omega)
    have rest := rest more (by omega)
    rw [List.findSomeM?_cons, ended, List.findSome?_cons, pure_bind]
    cases outcome a with
    | none => exact rest
    | some b => rfl

section Round

variable {graph : Graph Group ν} {stalled : List Nat} {place id : Nat} {text : Text}
  {node : Node Group ν}

theorem Ends.edge {next : Nat} {trail : Trail ν} (present : graph[id]? = some node)
    (edge : text.head?.bind node.edge? = some next)
    (ends : graph.Ends [] (place + 1) next text.tail trail) :
    graph.Ends stalled place id text (trail.behind place id node.value 1 []) := by
  obtain ⟨limit, ended⟩ := ends
  refine ends_of_next limit fun more enough => ?_
  simp [execute, present, edge, ended more enough]

theorem exists_limit_hops (stops : ∀ hop ∈ node.hops, hop.group.graph.Stops) (stalled : List Nat)
    (text : Text) :
    ∃ limit, ∀ more ≥ limit, node.hops.findSomeM? (fun hop =>
        (execute more hop.group.graph [] 0 0 text).map fun trail => hop.offer stalled trail.found) =
      some (node.hops.findSome? fun hop => hop.offer stalled (hop.group.run text)) := by
  refine exists_limit_findSomeM? (m := Option) fun hop mem => ?_
  obtain ⟨trail, ⟨limit, ended⟩, -, found⟩ := stops hop mem text
  refine ⟨limit, fun more enough => ?_⟩
  rw [ended more enough, Option.map_some, found, Group.run_eq]
  rfl

theorem Ends.hop {hop : Hop Group} {found : Found Unit} {trail : Trail ν}
    (present : graph[id]? = some node) (edge : text.head?.bind node.edge? = none)
    (stops : ∀ hop ∈ node.hops, hop.group.graph.Stops)
    (taken : node.hops.findSome? (fun hop => hop.offer (id :: stalled) (hop.group.run text)) =
      some (hop, found))
    (ends : graph.Ends (if found.length = 0 then id :: stalled else []) (place + found.length)
      hop.next (text.drop found.length) trail) :
    graph.Ends stalled place id text
      (trail.behind place id node.value found.length (hop.spans found)) := by
  obtain ⟨limit, ended⟩ := ends
  obtain ⟨limit', hops⟩ := exists_limit_hops stops (id :: stalled) text
  refine ends_of_next (max limit limit') fun more enough => ?_
  have ended := ended more (by omega)
  have hops := hops more (by omega)
  simp [execute, present, edge, hops, taken, ended]

theorem Ends.stop (present : graph[id]? = some node) (edge : text.head?.bind node.edge? = none)
    (stops : ∀ hop ∈ node.hops, hop.group.graph.Stops)
    (stop : node.hops.findSome? (fun hop => hop.offer (id :: stalled) (hop.group.run text)) =
      none) :
    graph.Ends stalled place id text ⟨[(place, id)], node.value.map .here⟩ := by
  obtain ⟨limit, hops⟩ := exists_limit_hops stops (id :: stalled) text
  refine ends_of_next limit fun more enough => ?_
  simp [execute, present, edge, hops more enough, stop]

theorem firstHop?_eq_offer {hops : List (Hop Group)} (inside : ∀ hop ∈ hops, hop.next < graph.size)
    (entered : List Nat) (text : Text) :
    graph.firstHop? Group.run entered text hops =
      hops.findSome? fun hop => hop.offer entered (hop.group.run text) := by
  induction hops with
  | nil => rfl
  | cons hop hops ih =>
    have same : ∀ found ∈ hop.group.run text,
        graph.Advances entered text hop found ↔ ¬(found.length = 0 ∧ hop.next ∈ entered) := by
      intro found ran
      have fits := (hop.group.run_fits text found ran).length
      have next := inside hop List.mem_cons_self
      by_cases none : found.length = 0
      · simp [Advances, none, next]
      · -- Something was read, so there was something.
        have some : text ≠ [] := by
          rintro rfl
          exact none (Nat.le_zero.1 fits)
        simp [Advances, none, some]
    have later := ih fun hop mem => inside hop (List.mem_cons_of_mem _ mem)
    simp only [firstHop?, List.findSome?_cons] at later ⊢
    rw [later]
    cases ran : hop.group.run text with
    | none => rfl
    | some found =>
      simp only [Hop.offer, Option.bind_some, same found ran, ite_not]

end Round

/-! ## The nodes entered -/

/-- No node is entered twice at one place. Nothing is entered before this place, and at this place
no node that is stalled. -/
structure Fresh (place : Nat) (stalled : List Nat) (entered : List (Nat × Nat)) : Prop where
  nodup : entered.Nodup
  first : ∀ visit ∈ entered, place ≤ visit.1 ∧ (visit.1 = place → visit.2 ∉ stalled)

theorem fresh_singleton {place id : Nat} {stalled : List Nat} (new : id ∉ stalled) :
    Fresh place stalled [(place, id)] := by
  refine ⟨List.nodup_singleton _, List.forall_mem_singleton.2 ⟨le_rfl, fun _ => new⟩⟩

/-- A node is entered in front of what is entered at a later place, or at this place with the node
stalled. -/
theorem Fresh.cons {place id length : Nat} {stalled : List Nat} {entered : List (Nat × Nat)}
    (fresh : Fresh (place + length) (if length = 0 then id :: stalled else []) entered)
    (new : id ∉ stalled) : Fresh place stalled ((place, id) :: entered) := by
  have apart : ∀ visit ∈ entered,
      place ≤ visit.1 ∧ (visit.1 = place → visit.2 ∉ id :: stalled) := by
    intro visit mem
    have first := fresh.first visit mem
    refine ⟨by omega, fun same => ?_⟩
    have none : length = 0 := by omega
    subst none
    exact first.2 same
  refine ⟨List.nodup_cons.2 ⟨fun mem => ?_, fresh.nodup⟩, List.forall_mem_cons.2 ⟨?_, ?_⟩⟩
  · exact (apart _ mem).2 rfl List.mem_cons_self
  · exact ⟨le_rfl, fun _ => new⟩
  · intro visit mem
    exact ⟨(apart visit mem).1, fun same among => (apart visit mem).2 same (.tail _ among)⟩

/-! ## Whole executions -/

theorem exists_ends {graph : Graph Group ν} (proper : graph.Proper)
    (stops : ∀ (id : Nat) (node : Node Group ν) hop, graph[id]? = some node → hop ∈ node.hops →
      hop.group.graph.Stops)
    (stalled : List Nat) (place id : Nat) (text : Text) (inside : id < graph.size)
    (new : id ∉ stalled) :
    ∃ trail, graph.Ends stalled place id text trail ∧ Fresh place stalled trail.entered ∧
      trail.found = graph.walk Group.run (id :: stalled) id text := by
  -- What the walk has entered at its place is what is stalled here, and the node itself.
  have along := @walk_induction Group ν Group.run graph
    fun entered id text result => ∀ stalled place, entered = id :: stalled → id < graph.size →
      id ∉ stalled → ∃ trail, graph.Ends stalled place id text trail ∧
        Fresh place stalled trail.entered ∧ trail.found = result
  refine along ?_ ?_ ?_ ?_ (id :: stalled) id text stalled place rfl inside new
  · intro entered id text missing stalled place _ inside _
    exact absurd inside (by simpa using missing)
  · intro entered id text node next present edge ih stalled place _ _ new
    obtain ⟨c, rest, -, rfl, -, -⟩ := exists_edge_of_head edge
    have inside := (proper.edge id node c next present (by simpa using edge)).2
    obtain ⟨trail, ends, fresh, found⟩ := ih [] (place + 1) rfl inside List.not_mem_nil
    refine ⟨trail.behind place id node.value 1 [], ends.edge present edge, fresh.cons new, ?_⟩
    rw [← found]
    rfl
  · intro entered id text node hop found present edge taken ih stalled place eq _ new
    subst eq
    have inside : ∀ hop ∈ node.hops, hop.next < graph.size :=
      fun hop mem => (proper.hop id node hop present mem).2
    obtain ⟨among, -, advances⟩ := of_firstHop? taken
    have enters : enter (id :: stalled) hop found =
        hop.next :: if found.length = 0 then id :: stalled else [] := by
      unfold enter
      split <;> rfl
    have new' : hop.next ∉ if found.length = 0 then id :: stalled else [] := by
      unfold Advances at advances
      split at advances
      · rename_i none
        rw [if_pos none]
        exact advances.2
      · rename_i some
        rw [if_neg some]
        exact List.not_mem_nil
    obtain ⟨trail, ends, fresh, found'⟩ :=
      ih _ (place + found.length) enters (inside hop among) new'
    rw [firstHop?_eq_offer inside] at taken
    refine ⟨trail.behind place id node.value found.length (hop.spans found),
      ends.hop present edge (stops id node · present) taken, fresh.cons new, ?_⟩
    rw [← found']
    rfl
  · intro entered id text node present edge stop stalled place eq _ new
    subst eq
    rw [firstHop?_eq_offer fun hop mem => (proper.hop id node hop present mem).2] at stop
    exact ⟨_, .stop present edge (stops id node · present) stop, fresh_singleton new, rfl⟩

theorem stops_of_proper {graph : Graph Group ν} (proper : graph.Proper)
    (stops : ∀ (id : Nat) (node : Node Group ν) hop, graph[id]? = some node → hop ∈ node.hops →
      hop.group.graph.Stops) : graph.Stops := by
  intro text
  obtain ⟨trail, ends, fresh, found⟩ :=
    exists_ends proper stops [] 0 0 text proper.nonempty List.not_mem_nil
  exact ⟨trail, ends, fresh.nodup, found⟩

end Graph

theorem Group.Proper.stops {group : Group} (proper : group.Proper) : group.graph.Stops := by
  induction proper with
  | intro group proper inner ih => exact Graph.stops_of_proper proper ih

namespace Lexicon

/-- Every execution comes to an end, on the graph of a lexicon and on that of every group it holds,
and enters no node twice at one place. -/
theorem executions_stop (entries : List (Entry ν)) :
    (ofEntries entries).graph.Stops ∧
      ∀ group, (ofEntries entries).Holds group → group.graph.Stops := by
  refine ⟨Graph.stops_of_proper (ofEntries_proper entries) fun id node hop present mem => ?_,
    fun group holds => holds.proper.stops⟩
  exact ((ofEntries_proper_groups entries).1 id node hop present mem).stops

theorem executions_stop_repeated :
    let lexicon : Lexicon Nat := ofEntries [.meaning ['E'] "((a?)*)*".toList,
      .pattern "x(\x7bE\x7d*)*(b?)+y".toList 1]
    ∃ group, lexicon.Holds group ∧ group.nullable ∧ lexicon.graph.Stops ∧ group.graph.Stops := by
  intro lexicon
  have named : (lexicon.meanings.group? ['E']).any Group.nullable = true := by decide +kernel
  obtain ⟨group, known, nullable⟩ := (Option.any_eq_true _ _).1 named
  have holds : lexicon.Holds group := .named ['E'] group known
  have stops := executions_stop [.meaning ['E'] "((a?)*)*".toList,
    .pattern "x(\x7bE\x7d*)*(b?)+y".toList 1]
  exact ⟨group, holds, nullable, stops.1, stops.2 group holds⟩

/-- After `xaa` the first group is left, and the empty rounds of the groups are not gone round. -/
example : ((ofEntries [.meaning ['E'] "((a?)*)*".toList,
      .pattern "x(\x7bE\x7d*)*(b?)+y".toList 1]).graph.execute 10 [] 0 0 "xaay".toList).map
    Trail.entered = some [(0, 0), (1, 1), (3, 2), (3, 3), (4, 4)] := by
  decide +kernel

end Lexicon

end OpGrammar
