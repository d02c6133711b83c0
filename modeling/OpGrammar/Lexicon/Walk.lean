import OpGrammar.Lexicon.Graph

/-!
# Walking a graph

A walk reads as much of a text as it can and answers with the last value that it passed. An edge is
taken before any hop, and of the hops the first that matches: there is no way back. A hop that reads
nothing must lead to a node that was not entered at this place before, so every walk ends.
-/

namespace OpGrammar

/-- A labelled part of what was read, counted in characters. -/
structure Span where
  label : Text
  start : Nat
  stop : Nat
  deriving DecidableEq, Repr

/-- The span as it is seen from `n` characters earlier. -/
def Span.shift (n : Nat) (span : Span) : Span := ⟨span.label, n + span.start, n + span.stop⟩

/-- What a walk found: how many characters it read, the value there, and the spans up to there. -/
structure Found (ν : Type) where
  length : Nat
  value : ν
  spans : List Span
  deriving DecidableEq, Repr

namespace Found

/-- What was found where nothing has been read yet. -/
def here {ν : Type} (value : ν) : Found ν := ⟨0, value, []⟩

/-- What was found after `n` characters in which there were the given spans. -/
def after {ν : Type} (n : Nat) (spans : List Span) (found : Found ν) : Found ν :=
  ⟨n + found.length, found.value, spans ++ found.spans.map (·.shift n)⟩

end Found

/-- The spans of a hop: its own first, if it has a label, then those inside its group. -/
def Hop.spans {γ : Type} (hop : Hop γ) (found : Found Unit) : List Span :=
  match hop.label with
  | none => found.spans
  | some label => ⟨label, 0, found.length⟩ :: found.spans

namespace Graph

variable {γ ν : Type}

/-- How many nodes of the graph are not among those entered. -/
def unentered (graph : Graph γ ν) (entered : List Nat) : Nat :=
  (List.range graph.size).countP (· ∉ entered)

/-- A bound for the steps of a walk: it falls when a character is read, or when a node is entered
for the first time at its place. -/
def room (graph : Graph γ ν) (entered : List Nat) (text : Text) : Nat :=
  text.length * (graph.size + 1) + graph.unentered entered

theorem unentered_le (graph : Graph γ ν) (entered : List Nat) :
    graph.unentered entered ≤ graph.size := by
  have := List.countP_le_length (p := (decide <| · ∉ entered)) (l := List.range graph.size)
  simpa [unentered] using this

theorem room_lt_of_length_lt (graph : Graph γ ν) (entered entered' : List Nat) {text rest : Text}
    (h : rest.length < text.length) : graph.room entered' rest < graph.room entered text := by
  have bound := graph.unentered_le entered'
  have rows : (rest.length + 1) * (graph.size + 1) ≤ text.length * (graph.size + 1) :=
    Nat.mul_le_mul_right _ h
  rw [Nat.add_mul] at rows
  simp only [room]
  omega

theorem unentered_cons_lt (graph : Graph γ ν) {entered : List Nat} {id : Nat}
    (inside : id < graph.size) (first : id ∉ entered) :
    graph.unentered (id :: entered) < graph.unentered entered := by
  have rows : ∀ l : List Nat, l.countP (· ∉ id :: entered) ≤ l.countP (· ∉ entered) :=
    fun l => List.countP_mono_left (by simp)
  have strict : ∀ l : List Nat, id ∈ l →
      l.countP (· ∉ id :: entered) < l.countP (· ∉ entered) := by
    intro l mem
    obtain ⟨l₁, l₂, rfl⟩ := List.append_of_mem mem
    have left := rows l₁
    have right := rows l₂
    simp only [List.countP_append, List.countP_cons] at left right ⊢
    simp [first] at left right ⊢
    omega
  exact strict _ (List.mem_range.2 inside)

/-- A hop gets the walk on if it reads some of the text, or if it enters a node for the first time
at this place. -/
def Advances (graph : Graph γ ν) (entered : List Nat) (text : Text) (hop : Hop γ)
    (found : Found Unit) : Prop :=
  if found.length = 0 then hop.next < graph.size ∧ hop.next ∉ entered else text ≠ []

instance (graph : Graph γ ν) (entered : List Nat) (text : Text) (hop : Hop γ)
    (found : Found Unit) : Decidable (graph.Advances entered text hop found) := by
  unfold Advances; infer_instance

/-- The nodes entered at the place that a hop leads to. -/
def enter (entered : List Nat) (hop : Hop γ) (found : Found Unit) : List Nat :=
  if found.length = 0 then hop.next :: entered else [hop.next]

theorem room_lt_of_advances {graph : Graph γ ν} {entered : List Nat} {text : Text} {hop : Hop γ}
    {found : Found Unit} (h : graph.Advances entered text hop found) :
    graph.room (enter entered hop found) (text.drop found.length) < graph.room entered text := by
  by_cases none : found.length = 0
  · simp only [Advances, none, if_true] at h
    have := graph.unentered_cons_lt h.1 h.2
    simp only [enter, room, none, if_true, List.drop_zero]
    omega
  · simp only [Advances, none, if_false] at h
    have := List.length_pos_iff.2 h
    exact graph.room_lt_of_length_lt _ _ (by simp; omega)

/-- The first hop, in their order, whose group matches and that gets the walk on. -/
def firstHop? (run : γ → Text → Option (Found Unit)) (graph : Graph γ ν) (entered : List Nat)
    (text : Text) (hops : List (Hop γ)) : Option (Hop γ × Found Unit) :=
  hops.findSome? fun hop =>
    (run hop.group text).bind fun found =>
      if graph.Advances entered text hop found then some (hop, found) else none

theorem of_firstHop? {run : γ → Text → Option (Found Unit)} {graph : Graph γ ν}
    {entered : List Nat} {text : Text} {hops : List (Hop γ)} {hop : Hop γ} {found : Found Unit}
    (h : graph.firstHop? run entered text hops = some (hop, found)) :
    hop ∈ hops ∧ run hop.group text = some found ∧ graph.Advances entered text hop found := by
  obtain ⟨hop', mem, h⟩ := List.exists_of_findSome?_eq_some h
  obtain ⟨found', ran, h⟩ := Option.bind_eq_some_iff.1 h
  split at h
  · rename_i advances
    obtain ⟨rfl, rfl⟩ := Prod.mk.inj (Option.some.inj h)
    exact ⟨mem, ran, advances⟩
  · cases h

theorem advances_of_firstHop? {run : γ → Text → Option (Found Unit)} {graph : Graph γ ν}
    {entered : List Nat} {text : Text} {hops : List (Hop γ)} {hop : Hop γ} {found : Found Unit}
    (h : graph.firstHop? run entered text hops = some (hop, found)) :
    graph.Advances entered text hop found :=
  (of_firstHop? h).2.2

/-- Walks on from a node, the last of those entered at this place. -/
def walk (run : γ → Text → Option (Found Unit)) (graph : Graph γ ν) (entered : List Nat) (id : Nat)
    (text : Text) : Option (Found ν) :=
  match graph[id]? with
  | none => none
  | some node =>
    let further : Option (Found ν) :=
      match _ : text.head?.bind node.edge? with
      | some next => (graph.walk run [next] next text.tail).map (.after 1 [])
      | none =>
        match _ : graph.firstHop? run entered text node.hops with
        | some (hop, found) =>
          (graph.walk run (enter entered hop found) hop.next (text.drop found.length)).map
            (.after found.length (hop.spans found))
        | none => none
    further.or (node.value.map Found.here)
termination_by graph.room entered text
decreasing_by
  · apply room_lt_of_length_lt
    cases text with
    | nil => simp_all
    | cons c text => simp
  · exact room_lt_of_advances (advances_of_firstHop? (by assumption))

/-! ## One step of a walk -/

section Steps

variable {run : γ → Text → Option (Found Unit)} {graph : Graph γ ν} {entered : List Nat} {id : Nat}
  {text : Text} {node : Node γ ν}

theorem exists_edge_of_head {next : Nat} (edge : text.head?.bind node.edge? = some next) :
    ∃ c rest item, text = c :: rest ∧ (item, next) ∈ node.edges ∧ item.contains c := by
  cases text with
  | nil => cases edge
  | cons c rest =>
    obtain ⟨⟨item, next⟩, first, rfl⟩ := Option.map_eq_some_iff.1 edge
    have contains := List.find?_some first
    exact ⟨c, rest, item, rfl, List.mem_of_find?_eq_some first, contains⟩

theorem walk_of_missing (missing : graph[id]? = none) : graph.walk run entered id text = none := by
  rw [walk]
  simp [missing]

theorem walk_of_edge (present : graph[id]? = some node) {next : Nat}
    (edge : text.head?.bind node.edge? = some next) :
    graph.walk run entered id text =
      ((graph.walk run [next] next text.tail).map (.after 1 [])).or
        (node.value.map Found.here) := by
  rw [walk]
  simp only [present]
  split
  · rename_i next' edge'
    obtain rfl := Option.some.inj (edge.symm.trans edge')
    rfl
  · simp_all

theorem walk_of_hop (present : graph[id]? = some node) (edge : text.head?.bind node.edge? = none)
    {hop : Hop γ} {found : Found Unit}
    (taken : graph.firstHop? run entered text node.hops = some (hop, found)) :
    graph.walk run entered id text =
      ((graph.walk run (enter entered hop found) hop.next (text.drop found.length)).map
        (.after found.length (hop.spans found))).or (node.value.map Found.here) := by
  rw [walk]
  simp only [present]
  split
  · simp_all
  · split
    · rename_i taken'
      obtain ⟨rfl, rfl⟩ := Prod.mk.inj (Option.some.inj (taken.symm.trans taken'))
      rfl
    · simp_all

theorem walk_of_stop (present : graph[id]? = some node) (edge : text.head?.bind node.edge? = none)
    (stop : graph.firstHop? run entered text node.hops = none) :
    graph.walk run entered id text = node.value.map Found.here := by
  rw [walk]
  simp only [present]
  split
  · simp_all
  · split <;> simp_all

end Steps

/-- What holds of the outcome of every walk can be shown step by step. -/
theorem walk_induction {run : γ → Text → Option (Found Unit)} {graph : Graph γ ν}
    {motive : List Nat → Nat → Text → Option (Found ν) → Prop}
    (missing : ∀ entered id text, graph[id]? = none → motive entered id text none)
    (edge : ∀ entered id text node next, graph[id]? = some node →
      text.head?.bind node.edge? = some next →
      motive [next] next text.tail (graph.walk run [next] next text.tail) →
      motive entered id text (((graph.walk run [next] next text.tail).map (.after 1 [])).or
        (node.value.map Found.here)))
    (hop : ∀ entered id text node hop found, graph[id]? = some node →
      text.head?.bind node.edge? = none →
      graph.firstHop? run entered text node.hops = some (hop, found) →
      motive (enter entered hop found) hop.next (text.drop found.length)
        (graph.walk run (enter entered hop found) hop.next (text.drop found.length)) →
      motive entered id text
        (((graph.walk run (enter entered hop found) hop.next (text.drop found.length)).map
          (.after found.length (hop.spans found))).or (node.value.map Found.here)))
    (stop : ∀ entered id text node, graph[id]? = some node →
      text.head?.bind node.edge? = none →
      graph.firstHop? run entered text node.hops = none →
      motive entered id text (node.value.map Found.here))
    (entered : List Nat) (id : Nat) (text : Text) :
    motive entered id text (graph.walk run entered id text) := by
  induction entered, id, text using walk.induct run graph with
  | case1 entered id text absent =>
    rw [walk_of_missing absent]
    exact missing entered id text absent
  | case2 entered id text node present ih₁ ih₂ =>
    cases first : text.head?.bind node.edge? with
    | some next =>
      rw [walk_of_edge present first]
      exact edge entered id text node next present first (ih₁ next first)
    | none =>
      cases taken : graph.firstHop? run entered text node.hops with
      | none =>
        rw [walk_of_stop present first taken]
        exact stop entered id text node present first taken
      | some taken' =>
        obtain ⟨hop', found⟩ := taken'
        rw [walk_of_hop present first taken]
        exact hop entered id text node hop' found present first taken (ih₂ hop' found taken)

end Graph

end OpGrammar
