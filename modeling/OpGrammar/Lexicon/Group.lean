import OpGrammar.Lexicon.Walk

/-!
# Running a group

A group is run by a walk through its own graph, on which every hop runs the group that it goes
through. `run_eq` is the equation to use, and `hops_induction` the induction.
-/

namespace OpGrammar

/-- What is found at the start of a text, if anything is. -/
abbrev Reading := Text → Option (Found Unit)

/-- The hop with another group in place of its own. -/
def Hop.mapGroup {γ δ : Type} (f : γ → δ) (hop : Hop γ) : Hop δ := ⟨f hop.group, hop.label, hop.next⟩

/-- The node with other groups in place of its own. -/
def Node.mapGroup {γ δ ν : Type} (f : γ → δ) (node : Node γ ν) : Node δ ν :=
  ⟨node.edges, node.hops.map (Hop.mapGroup f), node.value⟩

namespace Group

mutual

def run : Group → Reading
  | .mk _ ⟨nodes⟩ => fun text =>
    Graph.walk (fun reading => reading) (runNodes nodes).toArray [0] 0 text

/-- The nodes with the readings of the groups in place of the groups. -/
def runNodes : List (Node Group Unit) → List (Node Reading Unit)
  | [] => []
  | ⟨edges, hops, value⟩ :: nodes => ⟨edges, runHops hops, value⟩ :: runNodes nodes

/-- The hops with the readings of the groups in place of the groups. -/
def runHops : List (Hop Group) → List (Hop Reading)
  | [] => []
  | ⟨group, label, next⟩ :: hops => ⟨group.run, label, next⟩ :: runHops hops

end

theorem runHops_eq (hops : List (Hop Group)) : runHops hops = hops.map (Hop.mapGroup run) := by
  induction hops with
  | nil => simp [runHops]
  | cons hop hops ih => simp [runHops, ih, Hop.mapGroup]

theorem runNodes_eq (nodes : List (Node Group Unit)) :
    runNodes nodes = nodes.map (Node.mapGroup run) := by
  induction nodes with
  | nil => simp [runNodes]
  | cons node nodes ih => simp [runNodes, ih, Node.mapGroup, runHops_eq]

end Group

namespace Graph

variable {γ δ ν : Type}

theorem firstHop?_mapGroup (f : γ → δ) (run : δ → Reading) (graph : Graph γ ν) (entered : List Nat)
    (text : Text) (hops : List (Hop γ)) :
    firstHop? run (graph.map (Node.mapGroup f)) entered text (hops.map (Hop.mapGroup f)) =
      (graph.firstHop? (fun group => run (f group)) entered text hops).map
        fun taken => (taken.1.mapGroup f, taken.2) := by
  induction hops with
  | nil => rfl
  | cons hop hops ih =>
    simp only [firstHop?, List.map_cons, List.findSome?_cons] at ih ⊢
    have same : (hop.mapGroup f).group = f hop.group := rfl
    rw [same]
    cases run (f hop.group) text with
    | none => simpa using ih
    | some found =>
      have advances : Advances (graph.map (Node.mapGroup f)) entered text (hop.mapGroup f) found =
          graph.Advances entered text hop found := by
        simp [Advances, Hop.mapGroup]
      simp only [Option.bind_some, advances]
      split <;> simp_all

theorem walk_mapGroup (f : γ → δ) (run : δ → Reading) (graph : Graph γ ν) (entered : List Nat)
    (id : Nat) (text : Text) :
    walk run (graph.map (Node.mapGroup f)) entered id text =
      graph.walk (fun group => run (f group)) entered id text := by
  refine walk_induction (motive := fun entered id text found =>
    walk run (graph.map (Node.mapGroup f)) entered id text = found) ?_ ?_ ?_ ?_ entered id text
  · intro entered id text missing
    exact walk_of_missing (by simp [missing])
  · intro entered id text node next present edge ih
    have present' : (graph.map (Node.mapGroup f))[id]? = some (node.mapGroup f) := by simp [present]
    rw [walk_of_edge present' edge, ih]
    rfl
  · intro entered id text node hop found present edge taken ih
    have taken' := firstHop?_mapGroup f run graph entered text node.hops
    rw [taken] at taken'
    have present' : (graph.map (Node.mapGroup f))[id]? = some (node.mapGroup f) := by simp [present]
    rw [walk_of_hop present' edge taken']
    exact congrArg (fun rest => (rest.map (.after found.length (hop.spans found))).or
      (node.value.map Found.here)) ih
  · intro entered id text node present edge stop
    have stop' := firstHop?_mapGroup f run graph entered text node.hops
    rw [stop] at stop'
    have present' : (graph.map (Node.mapGroup f))[id]? = some (node.mapGroup f) := by simp [present]
    rw [walk_of_stop present' edge stop']
    rfl

end Graph

theorem Group.run_eq (group : Group) (text : Text) :
    group.run text = group.graph.walk Group.run [0] 0 text := by
  obtain ⟨id, ⟨nodes⟩⟩ := group
  rw [run, runNodes_eq]
  simpa using Graph.walk_mapGroup run (fun reading => reading) ⟨nodes⟩ [0] 0 text

/-- What holds of a group if it holds of the groups on its hops, holds of every group. -/
theorem Group.hops_induction {motive : Group → Prop}
    (step : ∀ group : Group, (∀ node ∈ group.graph, ∀ hop ∈ node.hops, motive hop.group) →
      motive group) (group : Group) : motive group := by
  obtain ⟨id, nodes⟩ := group
  exact step _ fun node mem hop mem' => Group.hops_induction step hop.group
termination_by group
decreasing_by
  have inside := Array.sizeOf_lt_of_mem mem
  have within := List.sizeOf_lt_of_mem mem'
  obtain ⟨edges, hops, value⟩ := node
  obtain ⟨group, label, next⟩ := hop
  simp at inside within ⊢
  omega

end OpGrammar
