import OpGrammar.Lexicon.Group
import OpGrammar.Proofs.Growth

/-!
# Values aside

Neither what is added to a graph nor how a walk goes through it depends on the values in it. So
values may be put in place of others before or afterwards, at every node by a rule of its own.
-/

namespace OpGrammar

variable {γ ν μ : Type}

def Node.revalue (f : Option ν → Option μ) (node : Node γ ν) : Node γ μ :=
  ⟨node.edges, node.hops, f node.value⟩

def Found.mapValue (f : ν → μ) (found : Found ν) : Found μ :=
  ⟨found.length, f found.value, found.spans⟩

namespace Node

variable {node : Node Group ν} (f : Option ν → Option μ)

theorem addLink_revalue (fresh : Nat) (link : Link) :
    (node.revalue f).addLink fresh link = (node.addLink fresh link).revalue f := by
  cases link with
  | chars items => rfl
  | group group label =>
    have same : (node.revalue f).hop? group label = node.hop? group label := rfl
    unfold addLink
    dsimp only
    rw [same]
    split <;> rfl

theorem hasLink_revalue (link : Link) : (node.revalue f).hasLink link = node.hasLink link := by
  cases link <;> rfl

theorem targets_revalue (link : Link) : (node.revalue f).targets link = node.targets link := by
  cases link <;> rfl

end Node

namespace Graph

def revalue (f : Nat → Option ν → Option μ) (graph : Graph γ ν) : Graph γ μ :=
  graph.mapIdx fun id node => node.revalue (f id)

def mapValue (f : ν → μ) (graph : Graph γ ν) : Graph γ μ := graph.revalue fun _ => Option.map f

section Revalue

variable (f : Nat → Option ν → Option μ)

@[simp] theorem getElem?_revalue (graph : Graph γ ν) (id : Nat) :
    (graph.revalue f)[id]? = graph[id]?.map (Node.revalue (f id)) := by
  simp [revalue]

@[simp] theorem size_revalue (graph : Graph γ ν) : (graph.revalue f).size = graph.size := by
  simp [revalue]

variable (graph : Graph Group ν)

theorem addLink_revalue (frontier : List Nat) (link : Link) (fresh : Nat) :
    (graph.revalue f).addLink frontier link fresh =
      (graph.addLink frontier link fresh).revalue f := by
  refine Array.ext_getElem? fun id => ?_
  simp only [addLink_getElem?, getElem?_revalue, Option.map_map]
  refine congrArg (Option.map · graph[id]?) (funext fun node => ?_)
  dsimp only [Function.comp_apply]
  split <;> simp [Node.addLink_revalue]

theorem targets_revalue (frontier : List Nat) (link : Link) :
    (graph.revalue f).targets frontier link = graph.targets frontier link := by
  have same (id : Nat) : (graph.revalue f)[id]?.map (·.targets link) =
      graph[id]?.map (·.targets link) := by
    rw [getElem?_revalue, Option.map_map]
    exact congrArg (Option.map · graph[id]?) (funext fun node => node.targets_revalue _ link)
  simp only [targets, same]

variable {f graph}

theorem push_revalue (blank : f graph.size none = none) :
    (graph.revalue f).push Node.blank = revalue f (graph.push Node.blank) := by
  simp [revalue, Array.mapIdx_push, Node.revalue, Node.blank, blank]

end Revalue

end Graph

namespace Draft

variable {f : Nat → Option ν → Option μ} {draft : Draft ν}

def revalue (f : Nat → Option ν → Option μ) (draft : Draft ν) : Draft μ :=
  ⟨draft.graph.revalue f, draft.fresh⟩

theorem has_revalue (link : Link) (id : Nat) :
    (draft.revalue f).Has link id ↔ draft.Has link id := by
  rw [← any_hasLink, ← any_hasLink, revalue, Graph.getElem?_revalue]
  cases draft.graph[id]? <;> simp [Node.hasLink_revalue]

theorem base_revalue (blank : ∀ id ≥ draft.graph.size, f id none = none) :
    (draft.revalue f).base = draft.base.revalue f := by
  unfold base revalue
  dsimp only
  split
  · rfl
  · exact Graph.push_revalue (blank _ le_rfl)

theorem place_revalue : (draft.revalue f).place = draft.place := by
  simp [place, revalue]

theorem addLink_revalue (draft : Draft ν) (blank : ∀ id ≥ draft.graph.size, f id none = none)
    (frontier : List Nat)
    (link : Link) :
    (draft.revalue f).addLink frontier link = (draft.addLink frontier link).revalue f := by
  rcases draft.addLink_cases frontier link with ⟨has, eq⟩ | ⟨⟨id, mem, lacks⟩, eq⟩
  · rw [eq, addLink_of_has fun id mem => (has_revalue link id).2 (has id mem)]
  · rw [eq, addLink_of_lacks ⟨id, mem, mt (has_revalue link id).1 lacks⟩, base_revalue blank,
      place_revalue, Graph.addLink_revalue]
    rfl

theorem targets_revalue (frontier : List Nat) (link : Link) :
    (draft.revalue f).graph.targets frontier link = draft.graph.targets frontier link :=
  Graph.targets_revalue f draft.graph frontier link

theorem closeLink_revalue (blank : ∀ id ≥ draft.graph.size, f id none = none) (reached : List Nat)
    (link : Link) (rounds : Nat) : (draft.revalue f).closeLink reached link rounds =
      ((draft.closeLink reached link rounds).1.revalue f,
        (draft.closeLink reached link rounds).2) := by
  induction rounds generalizing draft reached with
  | zero => rfl
  | succ rounds ih =>
    have larger := (draft.extends_addLink reached link).size_le
    simp only [closeLink, addLink_revalue draft blank, targets_revalue]
    split
    · rfl
    · exact ih (fun id above => blank id (by omega)) _

end Draft

namespace Graph

section Revalue

variable {f : Nat → Option ν → Option μ} {graph : Graph Group ν}

theorem addPiece_revalue (blank : ∀ id ≥ graph.size, f id none = none) (frontier : List Nat)
    (piece : Piece Link) :
    (graph.revalue f).addPiece frontier piece =
      ((graph.addPiece frontier piece).1.revalue f, (graph.addPiece frontier piece).2) := by
  have once : Draft.addLink ⟨graph.revalue f, none⟩ frontier piece.atom =
      (Draft.addLink ⟨graph, none⟩ frontier piece.atom).revalue f :=
    Draft.addLink_revalue ⟨graph, none⟩ blank frontier piece.atom
  have larger := (Draft.extends_addLink ⟨graph, none⟩ frontier piece.atom).size_le
  have closed (reached : List Nat) (rounds : Nat) :=
    Draft.closeLink_revalue (fun id above => blank id (Nat.le_trans larger above)) reached
      piece.atom rounds
  simp only [addPiece, once, Draft.targets_revalue, size_revalue, closed]
  split <;> rfl

theorem addBranch_revalue (blank : ∀ id ≥ graph.size, f id none = none) (frontier : List Nat)
    (pieces : List (Piece Link)) :
    (graph.revalue f).addBranch frontier pieces =
      ((graph.addBranch frontier pieces).1.revalue f, (graph.addBranch frontier pieces).2) := by
  induction pieces generalizing graph frontier with
  | nil => rfl
  | cons piece pieces ih =>
    have larger := (graph.extends_addPiece frontier piece).size_le
    simp only [addBranch, addPiece_revalue blank]
    exact ih (fun id above => blank id (by omega)) _

theorem addBranches_revalue (blank : ∀ id ≥ graph.size, f id none = none) (frontier : List Nat)
    (branches : Branches Link) :
    (graph.revalue f).addBranches frontier branches =
      ((graph.addBranches frontier branches).1.revalue f,
        (graph.addBranches frontier branches).2) := by
  induction branches generalizing graph with
  | nil => rfl
  | cons branch branches ih =>
    have larger := (graph.extends_addBranch frontier branch).size_le
    have later := @ih (graph.addBranch frontier branch).1 fun id above => blank id (by omega)
    simp only [addBranches, addBranch_revalue blank, later]

end Revalue

section MapValue

variable (f : ν → μ)

@[simp] theorem getElem?_mapValue (graph : Graph γ ν) (id : Nat) :
    (graph.mapValue f)[id]? = graph[id]?.map (Node.revalue (Option.map f)) := by
  simp [mapValue]

@[simp] theorem size_mapValue (graph : Graph γ ν) : (graph.mapValue f).size = graph.size := by
  simp [mapValue]

theorem empty_mapValue : (empty : Graph γ ν).mapValue f = empty := by
  simp [mapValue, revalue, empty, Node.revalue, Node.blank]

theorem addBranches_mapValue (graph : Graph Group ν) (frontier : List Nat)
    (branches : Branches Link) :
    (graph.mapValue f).addBranches frontier branches =
      ((graph.addBranches frontier branches).1.mapValue f,
        (graph.addBranches frontier branches).2) :=
  addBranches_revalue (fun _ _ => rfl) frontier branches

theorem addValue_mapValue (graph : Graph Group ν) (ends : List Nat) (value : ν) :
    (graph.mapValue f).addValue ends (f value) = (graph.addValue ends value).mapValue f := by
  refine Array.ext_getElem? fun id => ?_
  simp only [addValue_getElem?, getElem?_mapValue, Option.map_map]
  refine congrArg (Option.map · graph[id]?) (funext fun node => ?_)
  dsimp only [Function.comp_apply]
  split
  · unfold Node.addValue Node.revalue
    cases node.value <;> rfl
  · rfl

theorem proper_mapValue {graph : Graph Group ν} :
    (graph.mapValue f).Proper ↔ graph.Proper := by
  constructor
  · intro proper
    have twin {id : Nat} {node : Node Group ν} (present : graph[id]? = some node) :
        (graph.mapValue f)[id]? = some (node.revalue (Option.map f)) := by simp [present]
    refine ⟨?_, fun id node c next present leads => ?_, fun id node hop present mem => ?_⟩
    · simpa using proper.nonempty
    · simpa using proper.edge id _ c next (twin present) leads
    · simpa using proper.hop id _ hop (twin present) mem
  · intro proper
    refine ⟨?_, fun id node' c next present leads => ?_, fun id node' hop present mem => ?_⟩
    · simpa using proper.nonempty
    all_goals
      rw [getElem?_mapValue] at present
      obtain ⟨node, before, rfl⟩ := Option.map_eq_some_iff.1 present
      rw [size_mapValue]
    · exact proper.edge id node c next before leads
    · exact proper.hop id node hop before mem

/-! ## Walks -/

theorem firstHop?_mapValue (run : γ → Text → Option (Found Unit)) (graph : Graph γ ν)
    (entered : List Nat) (text : Text) (hops : List (Hop γ)) :
    (graph.mapValue f).firstHop? run entered text hops = graph.firstHop? run entered text hops := by
  simp [firstHop?, Advances]

theorem walk_mapValue (run : γ → Text → Option (Found Unit)) (graph : Graph γ ν)
    (entered : List Nat) (id : Nat) (text : Text) :
    (graph.mapValue f).walk run entered id text =
      (graph.walk run entered id text).map (Found.mapValue f) := by
  have further (n : Nat) (spans : List Span) (found : Option (Found ν)) (value : Option ν) :
      ((found.map (Found.mapValue f)).map (Found.after n spans)).or
          ((value.map f).map Found.here) =
        ((found.map (Found.after n spans)).or (value.map Found.here)).map (Found.mapValue f) := by
    cases found <;> cases value <;> rfl
  have twin {id : Nat} {node : Node γ ν} (present : graph[id]? = some node) :
      (graph.mapValue f)[id]? = some (node.revalue (Option.map f)) := by simp [present]
  refine walk_induction (motive := fun entered id text found =>
    (graph.mapValue f).walk run entered id text = found.map (Found.mapValue f))
    ?_ ?_ ?_ ?_ entered id text
  · intro entered id text missing
    exact walk_of_missing (by simp [missing])
  · intro entered id text node next present edge ih
    rw [walk_of_edge (twin present) edge, ih]
    exact further 1 [] _ node.value
  · intro entered id text node hop found present edge taken ih
    rw [← firstHop?_mapValue f] at taken
    rw [walk_of_hop (twin present) edge taken, ih]
    exact further found.length (hop.spans found) _ node.value
  · intro entered id text node present edge stop
    rw [← firstHop?_mapValue f] at stop
    rw [walk_of_stop (twin present) edge stop]
    exact further 0 [] none node.value

end MapValue

end Graph

end OpGrammar
