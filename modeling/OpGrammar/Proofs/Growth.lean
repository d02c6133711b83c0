import Mathlib.Data.List.Perm.Subperm
import Mathlib.Logic.Relation
import OpGrammar.Proofs.Language
import OpGrammar.Proofs.Linking

/-!
# What a graph gains

One spec per function that adds to a graph: what is there stays, every node that gets a link has it
afterwards, and a piece leaves nothing new but its link at the nodes that it is read from.
-/

open scoped Computability

namespace OpGrammar

variable {ν : Type}

/-! ## The new node of a piece

Whether it has been needed or not, it has its number: the graph of a draft is the one in which the
link is added with the new node there from the start, or this without the new node. -/

namespace Draft

variable {draft draft' : Draft ν} {frontier : List Nat} {link : Link} {id : Nat}

/-- From the node with this number the link leads somewhere, whatever it reads. -/
def Has (draft : Draft ν) (link : Link) (id : Nat) : Prop :=
  ∃ node, draft.graph[id]? = some node ∧ node.Has link

def place (draft : Draft ν) : Nat := draft.fresh.getD draft.graph.size

def base (draft : Draft ν) : Graph Group ν :=
  if draft.fresh.isSome then draft.graph else draft.graph.push Node.blank

theorem any_hasLink : draft.graph[id]?.any (·.hasLink link) ↔ draft.Has link id := by
  cases present : draft.graph[id]? <;> simp [Has, present, Node.hasLink_iff]

theorem freshNode_eq (draft : Draft ν) :
    draft.freshNode = (draft.place, ⟨draft.base, some draft.place⟩) := by
  obtain ⟨graph, fresh | _⟩ := draft <;> rfl

theorem base_getElem? {node : Node Group ν} (present : draft.graph[id]? = some node) :
    draft.base[id]? = some node := by
  unfold base
  split
  · exact present
  · exact Graph.getElem?_push_of_some present

theorem extends_base (draft : Draft ν) : draft.graph.Extends draft.base :=
  fun _ node present => ⟨node, base_getElem? present, .refl node⟩

theorem size_le_base (draft : Draft ν) : draft.graph.size ≤ draft.base.size := by
  unfold base
  split <;> simp

theorem addLink_base (has : ∀ id ∈ frontier, draft.Has link id) :
    draft.base.addLink frontier link draft.place = draft.base := by
  refine Graph.addLink_eq_self _ _ _ fun id mem node present => ?_
  obtain ⟨before, old, has⟩ := has id mem
  rw [base_getElem? old] at present
  exact Option.some.inj present ▸ has

theorem addLinkAt_of_has (has : draft.Has link id) : draft.addLinkAt link id = draft :=
  if_pos (any_hasLink.2 has)

theorem addLinkAt_of_lacks (lacks : ¬draft.Has link id) : draft.addLinkAt link id =
    ⟨draft.base.addLink [id] link draft.place, some draft.place⟩ := by
  unfold addLinkAt
  rw [if_neg (mt any_hasLink.1 lacks), freshNode_eq]
  refine congrArg (Draft.mk · _) (Array.ext_getElem? fun other => ?_)
  rw [Array.getElem?_modify, Graph.addLink_getElem?]
  by_cases same : id = other
  · simp [same]
  · simp [same, Ne.symm same]

theorem addLink_of_fresh (graph : Graph Group ν) (fresh : Nat) (frontier : List Nat) (link : Link) :
    addLink ⟨graph, some fresh⟩ frontier link =
      ⟨graph.addLink frontier link fresh, some fresh⟩ := by
  induction frontier generalizing graph with
  | nil => rw [Graph.addLink_eq_self [] link fresh nofun]; rfl
  | cons id frontier ih =>
    have first : addLinkAt link ⟨graph, some fresh⟩ id =
        ⟨graph.addLink [id] link fresh, some fresh⟩ := by
      by_cases has : Has ⟨graph, some fresh⟩ link id
      · have same := addLink_base (List.forall_mem_singleton.2 has)
        rw [addLinkAt_of_has has]
        exact congrArg (Draft.mk · _) same.symm
      · exact addLinkAt_of_lacks has
    have whole : (graph.addLink [id] link fresh).addLink frontier link fresh =
        graph.addLink (id :: frontier) link fresh :=
      Graph.addLink_addLink [id] frontier (id :: frontier) link fresh (by simp)
    rw [← whole, ← ih, ← first]
    rfl

theorem addLink_of_has (has : ∀ id ∈ frontier, draft.Has link id) :
    draft.addLink frontier link = draft := by
  induction frontier with
  | nil => rfl
  | cons id frontier ih =>
    obtain ⟨first, others⟩ := List.forall_mem_cons.1 has
    rw [addLink, List.foldl_cons, addLinkAt_of_has first]
    exact ih others

theorem addLink_of_lacks (lacks : ∃ id ∈ frontier, ¬draft.Has link id) :
    draft.addLink frontier link =
      ⟨draft.base.addLink frontier link draft.place, some draft.place⟩ := by
  induction frontier with
  | nil => simp at lacks
  | cons id frontier ih =>
    have whole : (draft.base.addLink [id] link draft.place).addLink frontier link draft.place =
        draft.base.addLink (id :: frontier) link draft.place :=
      Graph.addLink_addLink [id] frontier (id :: frontier) link _ (by simp)
    rw [addLink, List.foldl_cons]
    by_cases has : draft.Has link id
    · have others : ∃ id ∈ frontier, ¬draft.Has link id := by simpa [has] using lacks
      rw [addLinkAt_of_has has, ← whole, addLink_base (by simpa using has)]
      exact ih others
    · rw [addLinkAt_of_lacks has, ← whole]
      exact addLink_of_fresh _ _ frontier link

theorem addLink_cases (draft : Draft ν) (frontier : List Nat) (link : Link) :
    (∀ id ∈ frontier, draft.Has link id) ∧ draft.addLink frontier link = draft ∨
      (∃ id ∈ frontier, ¬draft.Has link id) ∧ draft.addLink frontier link =
        ⟨draft.base.addLink frontier link draft.place, some draft.place⟩ := by
  by_cases has : ∀ id ∈ frontier, draft.Has link id
  · exact .inl ⟨has, addLink_of_has has⟩
  · exact .inr ⟨by simpa using has, addLink_of_lacks (by simpa using has)⟩

theorem size_base_addLink (frontier : List Nat) (link : Link) :
    (draft.addLink frontier link).base.size = draft.base.size := by
  rcases draft.addLink_cases frontier link with ⟨-, eq⟩ | ⟨-, eq⟩
  · rw [eq]
  · rw [eq]
    exact Graph.size_addLink frontier link _

theorem addLink_addLink (frontier more all : List Nat) (link : Link)
    (both : ∀ id, id ∈ all ↔ id ∈ frontier ∨ id ∈ more) :
    (draft.addLink frontier link).addLink more link = draft.addLink all link := by
  have whole : (draft.base.addLink frontier link draft.place).addLink more link draft.place =
      draft.base.addLink all link draft.place :=
    Graph.addLink_addLink frontier more all link draft.place both
  rcases draft.addLink_cases frontier link with ⟨has, eq⟩ | ⟨⟨id, mem, lacks⟩, eq⟩
  · rw [addLink_base has] at whole
    rw [eq]
    rcases draft.addLink_cases more link with ⟨has', eq'⟩ | ⟨⟨id, mem, lacks⟩, eq'⟩
    · rw [eq', addLink_of_has fun id mem => ((both id).1 mem).elim (has id) (has' id)]
    · rw [eq', whole, addLink_of_lacks ⟨id, (both id).2 (.inr mem), lacks⟩]
  · rw [eq, addLink_of_fresh, whole, addLink_of_lacks ⟨id, (both id).2 (.inl mem), lacks⟩]

theorem extends_addLink (draft : Draft ν) (frontier : List Nat) (link : Link) :
    draft.graph.Extends (draft.addLink frontier link).graph := by
  rcases draft.addLink_cases frontier link with ⟨-, eq⟩ | ⟨-, eq⟩
  · rw [eq]
    exact .refl _
  · rw [eq]
    exact draft.extends_base.trans (Graph.extends_addLink frontier link _)

theorem addLink_addLink_getElem? (more : List Nat) (link : Link) (mem : id ∈ frontier) :
    ((draft.addLink frontier link).addLink more link).graph[id]? =
      (draft.addLink frontier link).graph[id]? := by
  rcases draft.addLink_cases frontier link with ⟨has, eq⟩ | ⟨-, eq⟩
  · obtain ⟨node, present, has⟩ := has id mem
    rw [eq]
    rcases draft.addLink_cases more link with ⟨-, eq'⟩ | ⟨-, eq'⟩
    · rw [eq']
    · rw [eq', Graph.addLink_getElem?, base_getElem? present, present]
      simp [Node.addLink_of_has draft.place link has]
  · rw [eq, addLink_of_fresh]
    exact Graph.addLink_addLink_getElem? frontier more link _ id mem

/-- The graph is proper, and the new node, if it is there, is not the first. -/
structure Proper (draft : Draft ν) : Prop where
  graph : draft.graph.Proper
  fresh : ∀ fresh, draft.fresh = some fresh → 0 < fresh ∧ fresh < draft.graph.size

theorem Proper.base (proper : draft.Proper) : draft.base.Proper := by
  unfold Draft.base
  split
  · exact proper.graph
  · exact Graph.proper_push proper.graph

theorem Proper.place (proper : draft.Proper) :
    0 < draft.place ∧ draft.place < draft.base.size := by
  obtain ⟨graph, fresh | fresh⟩ := draft
  · exact ⟨proper.graph.nonempty, by simp [Draft.base, Draft.place]⟩
  · exact proper.fresh fresh rfl

theorem Proper.addLink (proper : draft.Proper) (frontier : List Nat) (link : Link) :
    (draft.addLink frontier link).Proper := by
  rcases draft.addLink_cases frontier link with ⟨-, eq⟩ | ⟨-, eq⟩
  · rwa [eq]
  · rw [eq]
    obtain ⟨pos, inside⟩ := proper.place
    refine ⟨Graph.proper_addLink proper.base frontier link _ pos inside, fun fresh same => ?_⟩
    obtain rfl := Option.some.inj same
    exact ⟨pos, by rwa [Graph.size_addLink]⟩

end Draft

namespace Graph

variable {graph graph' : Graph Group ν}

/-! ## Following a link again and again -/

/-- The loop that repeats a link, with the number of its rounds. It goes on as long as the link leads
to a node that is not reached yet, and nothing else makes it stop. -/
inductive Closes (link : Link) : Draft ν → List Nat → Nat → Draft ν → List Nat → Prop
  | stop (draft : Draft ν) (reached : List Nat)
    (done : ∀ next ∈ (draft.addLink reached link).graph.targets reached link, next ∈ reached) :
    Closes link draft reached 1 (draft.addLink reached link) reached
  | again (draft : Draft ν) (reached : List Nat) {rounds : Nat} {draft' : Draft ν}
    {closed : List Nat}
    (more : ∃ next ∈ (draft.addLink reached link).graph.targets reached link, next ∉ reached)
    (rest : Closes link (draft.addLink reached link)
      (joinNodes reached ((draft.addLink reached link).graph.targets reached link)) rounds draft'
      closed) :
    Closes link draft reached (rounds + 1) draft' closed

theorem length_lt_joinNodes {nodes more : List Nat} {extra : Nat} (distinct : nodes.Nodup)
    (mem : extra ∈ more) (new : extra ∉ nodes) : nodes.length < (joinNodes nodes more).length := by
  have larger : (extra :: nodes).Nodup := List.nodup_cons.2 ⟨new, distinct⟩
  refine (larger.subperm fun id mem' => ?_).length_le
  rcases List.mem_cons.1 mem' with rfl | old
  · exact mem_joinNodes.2 (Or.inr mem)
  · exact mem_joinNodes.2 (Or.inl old)

/-- A round that goes on takes in a node, and there are not more distinct nodes than nodes, the new
one counted. -/
theorem closeLink_closes {draft : Draft ν} (link : Link) (rounds : Nat) (reached : List Nat)
    (proper : draft.Proper) (distinct : reached.Nodup) (among : ∀ id ∈ reached, id < draft.base.size)
    (enough : draft.base.size < reached.length + rounds ∨ reached = [] ∧ 0 < rounds) :
    ∃ gone ≤ rounds, Closes link draft reached gone (draft.closeLink reached link rounds).1
      (draft.closeLink reached link rounds).2 := by
  induction rounds generalizing draft reached with
  | zero =>
    have few : reached.Subperm (List.range draft.base.size) :=
      distinct.subperm fun id mem => List.mem_range.2 (among id mem)
    have := few.length_le
    rw [List.length_range] at this
    omega
  | succ rounds ih =>
    unfold Draft.closeLink
    dsimp only
    split
    · rename_i done
      exact ⟨1, by omega, .stop draft reached (by simpa using done)⟩
    · rename_i more
      have proper' := proper.addLink reached link
      let again := (draft.addLink reached link).graph.targets reached link
      obtain ⟨extra, mem, new⟩ : ∃ next ∈ again, next ∉ reached := by
        simpa [List.all_eq_true] using more
      obtain ⟨source, start, -⟩ := (mem_targets reached link extra).1 mem
      have some_reached : reached ≠ [] := List.ne_nil_of_mem start
      have longer := length_lt_joinNodes distinct mem new
      obtain ⟨gone, few, rest⟩ := ih (joinNodes reached again) proper'
        (nodup_joinNodes distinct again)
        (fun id mem => by
          rcases mem_joinNodes.1 mem with old | target
          · rw [Draft.size_base_addLink]
            exact among id old
          · obtain ⟨from', -, goes⟩ := (mem_targets reached link id).1 target
            exact Nat.lt_of_lt_of_le (proper'.graph.goes link from' id goes).2
              (Draft.size_le_base _))
        (by
          rw [Draft.size_base_addLink]
          rcases enough with enough | ⟨none, -⟩
          · exact Or.inl (by omega)
          · exact absurd none some_reached)
      exact ⟨gone + 1, by omega, .again draft reached ⟨extra, mem, new⟩ rest⟩

/-- The nodes that a repeated link leads to are those that it leads to from one of `reached`, in one
or more steps. -/
theorem Closes.spec {link : Link} {rounds : Nat} {reached closed : List Nat} {draft draft' : Draft ν}
    (closes : Closes link draft reached rounds draft' closed) :
    draft' = draft.addLink closed link ∧
      (∀ id ∈ reached, id ∈ closed) ∧
      (∀ id ∈ closed, ∀ next, draft'.graph.Goes link id next → next ∈ closed) ∧
      ∀ id ∈ closed, ∃ first ∈ reached, Relation.ReflTransGen (draft'.graph.Goes link) first id := by
  induction closes with
  | stop draft reached done =>
    refine ⟨rfl, fun _ mem => mem, fun id mem next goes => ?_, fun id mem => ⟨id, mem, .refl⟩⟩
    exact done next ((mem_targets reached link next).2 ⟨id, mem, goes⟩)
  | again draft reached _ rest ih =>
    rename_i rounds draft' closed _
    obtain ⟨eq, kept, stays, comes⟩ := ih
    have reached_closed : ∀ id ∈ reached, id ∈ closed :=
      fun id mem => kept id (mem_joinNodes.2 (Or.inl mem))
    have later : (draft.addLink reached link).graph.Extends draft'.graph :=
      eq ▸ Draft.extends_addLink _ closed link
    refine ⟨?_, reached_closed, stays, fun id mem => ?_⟩
    · rw [eq]
      exact Draft.addLink_addLink reached closed closed link fun id =>
        ⟨Or.inr, fun mem => mem.elim (reached_closed id) fun mem => mem⟩
    · obtain ⟨first, start, steps⟩ := comes id mem
      rcases mem_joinNodes.1 start with old | target
      · exact ⟨first, old, steps⟩
      · obtain ⟨id', mem', goes⟩ := (mem_targets reached link first).1 target
        exact ⟨id', mem', .head (later.goes link id' first goes) steps⟩

theorem extends_closeLink {draft : Draft ν} (reached : List Nat) (link : Link) (rounds : Nat) :
    draft.graph.Extends (draft.closeLink reached link rounds).1.graph := by
  induction rounds generalizing draft reached with
  | zero => exact .refl _
  | succ rounds ih =>
    have once := draft.extends_addLink reached link
    unfold Draft.closeLink
    dsimp only
    split
    · exact once
    · exact once.trans (ih _)

theorem extends_addPiece (graph : Graph Group ν) (frontier : List Nat) (piece : Piece Link) :
    graph.Extends (graph.addPiece frontier piece).1 := by
  have once := Draft.extends_addLink ⟨graph, none⟩ frontier piece.atom
  unfold addPiece
  dsimp only
  split
  · exact once.trans (extends_closeLink _ piece.atom _)
  · exact once

theorem extends_addBranch (graph : Graph Group ν) (frontier : List Nat)
    (pieces : List (Piece Link)) : graph.Extends (graph.addBranch frontier pieces).1 := by
  induction pieces generalizing graph frontier with
  | nil => exact .refl _
  | cons piece pieces ih => exact (extends_addPiece graph frontier piece).trans (ih _ _)

/-! ## Adding a piece -/

def sources (frontier reached : List Nat) (more : Bool) : List Nat :=
  if more then frontier ++ reached else frontier

theorem mem_sources {frontier reached : List Nat} {more : Bool} {id : Nat} :
    id ∈ sources frontier reached more ↔ id ∈ frontier ∨ more ∧ id ∈ reached := by
  cases more <;> simp [sources]

theorem start_mem_sources {frontier : List Nat} (reached : List Nat) (more : Bool) {id : Nat}
    (start : id ∈ frontier) : id ∈ sources frontier reached more :=
  mem_sources.2 (Or.inl start)

theorem reached_mem_sources (frontier : List Nat) {reached : List Nat} {more : Bool} {id : Nat}
    (may : more) (mem : id ∈ reached) : id ∈ sources frontier reached more :=
  mem_sources.2 (Or.inr ⟨may, mem⟩)

/-- What a graph has gained when a link leads from a frontier to the nodes reached, read once or,
when there may be more, any number of times. -/
structure Swept (graph : Graph Group ν) (frontier : List Nat) (link : Link) (more : Bool)
    (graph' : Graph Group ν) (reached : List Nat) : Prop where
  keeps : graph.Extends graph'
  proper : graph'.Proper
  /-- The link is at every node that it is read from. -/
  has : ∀ id ∈ sources frontier reached more, ∀ node, graph'[id]? = some node → node.Has link
  goes : ∀ id ∈ sources frontier reached more, ∀ next, graph'.Goes link id next → next ∈ reached
  comes : ∀ id ∈ reached, ∃ first ∈ frontier, ∃ second, graph'.Goes link first second ∧
    if more then Relation.ReflTransGen (graph'.Goes link) second id else id = second
  edge : ∀ (id : Nat) (node' : Node Group ν) c next, graph'[id]? = some node' →
    node'.edge? c = some next → (∃ node, graph[id]? = some node ∧ node.edge? c = some next) ∨
      id ∈ sources frontier reached more ∧ next = graph.size ∧ ∃ items, link = .chars items ∧
        ∃ item ∈ items, item.contains c
  hop : ∀ (id : Nat) (node' : Node Group ν) hop, graph'[id]? = some node' → hop ∈ node'.hops →
    (∃ node, graph[id]? = some node ∧ hop ∈ node.hops) ∨
      id ∈ sources frontier reached more ∧ hop.next = graph.size ∧
        link = .group hop.group hop.label ∧
          ∀ node, graph[id]? = some node → node.hop? hop.group hop.label = none
  value : ∀ (id : Nat) (node' : Node Group ν) v, graph'[id]? = some node' →
    node'.value = some v → ∃ node, graph[id]? = some node ∧ node.value = some v

/-- The graph with the link at the frontier, and with a fresh node if the link led nowhere from one
of its nodes. -/
def linked (graph : Graph Group ν) (frontier : List Nat) (link : Link) : Draft ν :=
  Draft.addLink ⟨graph, none⟩ frontier link

theorem proper_linked (proper : graph.Proper) (frontier : List Nat) (link : Link) :
    (graph.linked frontier link).Proper :=
  Draft.Proper.addLink ⟨proper, fun _ same => by cases same⟩ frontier link

theorem size_base_linked (frontier : List Nat) (link : Link) :
    (graph.linked frontier link).base.size = graph.size + 1 :=
  (Draft.size_base_addLink frontier link).trans (Array.size_push _)

theorem linked_cases (graph : Graph Group ν) (frontier : List Nat) (link : Link) :
    (∀ id ∈ frontier, ∃ node, graph[id]? = some node ∧ node.Has link) ∧
        (graph.linked frontier link).graph = graph ∨
      (∃ id ∈ frontier, ¬∃ node, graph[id]? = some node ∧ node.Has link) ∧
        (graph.linked frontier link).graph =
          addLink (graph.push Node.blank) frontier link graph.size := by
  rcases Draft.addLink_cases ⟨graph, none⟩ frontier link with ⟨has, eq⟩ | ⟨lacks, eq⟩
  · exact .inl ⟨has, congrArg Draft.graph eq⟩
  · exact .inr ⟨lacks, congrArg Draft.graph eq⟩

theorem swept_linked (proper : graph.Proper) (frontier reached : List Nat) (link : Link)
    (more : Bool) (graph' : Graph Group ν)
    (eq : graph' = (graph.linked (sources frontier reached more) link).graph)
    (goes : ∀ id ∈ sources frontier reached more, ∀ next, graph'.Goes link id next →
      next ∈ reached)
    (comes : ∀ id ∈ reached, ∃ first ∈ frontier, ∃ second, graph'.Goes link first second ∧
      if more then Relation.ReflTransGen (graph'.Goes link) second id else id = second) :
    graph.Swept frontier link more graph' reached := by
  have proper' : graph'.Proper := eq ▸ (proper_linked proper _ link).graph
  rcases graph.linked_cases (sources frontier reached more) link with ⟨has, made⟩ | ⟨-, made⟩
  · obtain rfl : graph' = graph := eq.trans made
    refine ⟨.refl _, proper', fun id mem node present => ?_, goes, comes, ?_, ?_, ?_⟩
    · obtain ⟨same, found, has⟩ := has id mem
      rw [found] at present
      exact Option.some.inj present ▸ has
    · exact fun id node c next present leads => .inl ⟨node, present, leads⟩
    · exact fun id node hop present mem => .inl ⟨node, present, mem⟩
    · exact fun id node v present known => ⟨node, present, known⟩
  · obtain rfl : graph' = _ := eq.trans made
    refine ⟨?_, proper', ?_, goes, comes, ?_, ?_, ?_⟩
    · exact .trans (fun _ node present => ⟨node, getElem?_push_of_some present, .refl node⟩)
        (extends_addLink _ link graph.size)
    · intro id mem node present
      exact goes_of_mem _ link graph.size id mem node present
    · intro id node' c next present leads
      rcases addLink_edge _ link graph.size id node' c next present leads with
        ⟨node, before, old⟩ | ⟨mem, fresh, reads⟩
      · rcases push_getElem? id node before with before | rfl
        · exact .inl ⟨node, before, old⟩
        · cases old
      · exact .inr ⟨mem, fresh, reads⟩
    · intro id node' hop present mem
      rcases addLink_hop _ link graph.size id node' hop present mem with
        ⟨node, before, old⟩ | ⟨among, fresh, same, lacks⟩
      · rcases push_getElem? id node before with before | rfl
        · exact .inl ⟨node, before, old⟩
        · cases old
      · exact .inr ⟨among, fresh, same, fun node present => lacks node (getElem?_push_of_some present)⟩
    · intro id node' v present known
      obtain ⟨node, before, same⟩ := addLink_value _ link graph.size id node' present
      rcases push_getElem? id node before with before | rfl
      · exact ⟨node, before, same.trans known⟩
      · cases same.trans known

theorem swept_once (proper : graph.Proper) (frontier : List Nat) (link : Link) :
    graph.Swept frontier link false (graph.linked frontier link).graph
      ((graph.linked frontier link).graph.targets frontier link) := by
  refine swept_linked proper frontier _ link false _ rfl ?_ ?_
  · intro id mem next goes
    exact (mem_targets frontier link next).2 ⟨id, mem, goes⟩
  · intro id mem
    obtain ⟨source, start, goes⟩ := (mem_targets frontier link id).1 mem
    exact ⟨source, start, id, goes, rfl⟩

theorem Closes.swept (proper : graph.Proper) {frontier closed : List Nat} {link : Link}
    {rounds : Nat} {draft : Draft ν} (closes : Closes link (graph.linked frontier link)
      ((graph.linked frontier link).graph.targets frontier link) rounds draft closed) :
    draft = graph.linked (sources frontier closed true) link ∧
      graph.Swept frontier link true draft.graph closed := by
  obtain ⟨eq, kept, stays, comes⟩ := closes.spec
  -- The link is added twice, at the frontier first; that is the same as adding it once.
  have whole : draft = graph.linked (sources frontier closed true) link :=
    eq.trans (Draft.addLink_addLink frontier closed _ link fun id => by simp [sources])
  have same (id : Nat) (start : id ∈ frontier) :
      draft.graph[id]? = (graph.linked frontier link).graph[id]? :=
    eq ▸ Draft.addLink_addLink_getElem? closed link start
  have later : (graph.linked frontier link).graph.Extends draft.graph :=
    eq ▸ Draft.extends_addLink _ closed link
  refine ⟨whole, swept_linked proper frontier closed link true draft.graph (congrArg _ whole) ?_ ?_⟩
  · intro id mem next goes
    rcases mem_sources.1 mem with start | ⟨-, mem⟩
    · obtain ⟨node, present, target⟩ := goes
      rw [same id start] at present
      exact kept next ((mem_targets frontier link next).2 ⟨id, start, node, present, target⟩)
    · exact stays id mem next goes
  · intro id mem
    obtain ⟨second, mem', steps⟩ := comes id mem
    obtain ⟨source, start, goes⟩ := (mem_targets frontier link second).1 mem'
    exact ⟨source, start, second, later.goes link source second goes, steps⟩

theorem addPiece_closes (proper : graph.Proper) (frontier : List Nat) (link : Link) :
    ∃ rounds ≤ graph.size + 1, ∃ draft closed, (graph.linked frontier link).closeLink
        ((graph.linked frontier link).graph.targets frontier link) link (graph.size + 1) =
          (draft, closed) ∧
      Closes link (graph.linked frontier link)
        ((graph.linked frontier link).graph.targets frontier link) rounds draft closed := by
  let once := graph.linked frontier link
  let first := once.graph.targets frontier link
  have proper' : once.Proper := proper_linked proper frontier link
  have size : once.base.size = graph.size + 1 := size_base_linked frontier link
  have among (id : Nat) (mem : id ∈ first) : id < once.base.size := by
    obtain ⟨source, -, goes⟩ := (mem_targets frontier link id).1 mem
    exact Nat.lt_of_lt_of_le (proper'.graph.goes link source id goes).2 (Draft.size_le_base _)
  have enough : once.base.size < first.length + (graph.size + 1) ∨
      first = [] ∧ 0 < graph.size + 1 := by
    cases first with
    | nil => exact Or.inr ⟨rfl, by omega⟩
    | cons => exact Or.inl (by simp [size])
  obtain ⟨rounds, few, closes⟩ := closeLink_closes link (graph.size + 1) first proper'
    (nodup_targets frontier link) among enough
  exact ⟨rounds, few, _, _, rfl, closes⟩

theorem addPiece_runs (proper : graph.Proper) (frontier : List Nat) (piece : Piece Link) :
    ∃ draft : Draft ν, ∃ reached, graph.addPiece frontier piece =
        (draft.graph, if piece.quantifier.allowsNone then joinNodes reached frontier else reached) ∧
      draft = graph.linked (sources frontier reached piece.quantifier.allowsMore) piece.atom ∧
      (piece.quantifier.allowsMore → ∃ rounds ≤ graph.size + 1,
        Closes piece.atom (graph.linked frontier piece.atom)
          ((graph.linked frontier piece.atom).graph.targets frontier piece.atom) rounds draft
          reached) ∧
      graph.Swept frontier piece.atom piece.quantifier.allowsMore draft.graph reached := by
  obtain ⟨link, quantifier⟩ := piece
  cases more : quantifier.allowsMore with
  | false =>
    refine ⟨graph.linked frontier link, _, ?_, rfl, nofun, swept_once proper frontier link⟩
    simp [addPiece, more, linked]
  | true =>
    obtain ⟨rounds, few, draft, closed, run, closes⟩ := addPiece_closes proper frontier link
    obtain ⟨whole, swept⟩ := closes.swept proper
    refine ⟨draft, closed, ?_, whole, fun _ => ⟨rounds, few, closes⟩, swept⟩
    rw [linked] at run
    simp only [addPiece, more, if_true, run]

/-- A piece sweeps the graph. If it may be left out, the frontier belongs to the nodes after it. -/
theorem addPiece_spec (proper : graph.Proper) (frontier : List Nat) (piece : Piece Link) :
    ∃ graph' reached, graph.addPiece frontier piece =
        (graph', if piece.quantifier.allowsNone then joinNodes reached frontier else reached) ∧
      graph.Swept frontier piece.atom piece.quantifier.allowsMore graph' reached := by
  obtain ⟨draft, reached, eq, -, -, swept⟩ := addPiece_runs proper frontier piece
  exact ⟨draft.graph, reached, eq, swept⟩

theorem mem_after (allowsNone : Bool) (frontier reached : List Nat) (id : Nat) :
    id ∈ (if allowsNone then joinNodes reached frontier else reached) ↔
      id ∈ reached ∨ allowsNone ∧ id ∈ frontier := by
  cases allowsNone <;> simp

theorem Swept.goes_to {frontier reached : List Nat} {link : Link} {more : Bool}
    (swept : graph.Swept frontier link more graph' reached) (id : Nat) (mem : id ∈ reached) :
    ∃ before, graph'.Goes link before id := by
  obtain ⟨first, -, second, goes, steps⟩ := swept.comes id mem
  cases more with
  | false =>
    obtain rfl : id = second := by simpa using steps
    exact ⟨first, goes⟩
  | true =>
    rw [if_pos rfl] at steps
    rcases steps.cases_tail with same | ⟨before, -, goes'⟩
    · exact ⟨first, same ▸ goes⟩
    · exact ⟨before, goes'⟩

/-! ## Adding a pattern -/

theorem addBranch_grows (proper : graph.Proper) (frontier : List Nat) (pieces : List (Piece Link)) :
    graph.Extends (graph.addBranch frontier pieces).1 ∧
      (graph.addBranch frontier pieces).1.Proper := by
  refine ⟨extends_addBranch graph frontier pieces, ?_⟩
  induction pieces generalizing graph frontier with
  | nil => exact proper
  | cons piece pieces ih =>
    obtain ⟨graph', reached, eq, swept⟩ := addPiece_spec proper frontier piece
    unfold addBranch
    rw [eq]
    exact ih swept.proper _

theorem addBranches_grows (proper : graph.Proper) (frontier : List Nat) (branches : Branches Link) :
    graph.Extends (graph.addBranches frontier branches).1 ∧
      (graph.addBranches frontier branches).1.Proper := by
  induction branches generalizing graph with
  | nil => exact ⟨.refl graph, proper⟩
  | cons branch branches ih =>
    have first := addBranch_grows proper frontier branch
    have later := ih first.2
    exact ⟨first.1.trans later.1, later.2⟩

theorem addBranch_value (proper : graph.Proper) (frontier : List Nat) (pieces : List (Piece Link))
    (id : Nat) (node' : Node Group ν) (v : ν)
    (present : (graph.addBranch frontier pieces).1[id]? = some node') (known : node'.value = some v) :
    ∃ node, graph[id]? = some node ∧ node.value = some v := by
  induction pieces generalizing graph frontier with
  | nil => exact ⟨node', present, known⟩
  | cons piece pieces ih =>
    obtain ⟨graph', reached, eq, swept⟩ := addPiece_spec proper frontier piece
    unfold addBranch at present
    rw [eq] at present
    obtain ⟨node, between, known⟩ := ih swept.proper _ present
    exact swept.value id node v between known

theorem addBranches_value (proper : graph.Proper) (frontier : List Nat) (branches : Branches Link)
    (id : Nat) (node' : Node Group ν) (v : ν)
    (present : (graph.addBranches frontier branches).1[id]? = some node')
    (known : node'.value = some v) : ∃ node, graph[id]? = some node ∧ node.value = some v := by
  induction branches generalizing graph with
  | nil => exact ⟨node', present, known⟩
  | cons branch branches ih =>
    obtain ⟨node, between, known⟩ := ih (addBranch_grows proper frontier branch).2 present
    exact addBranch_value proper frontier branch id node v between known

theorem addBranch_hop (proper : graph.Proper) (frontier : List Nat) (pieces : List (Piece Link))
    (id : Nat) (node' : Node Group ν) (hop : Hop Group)
    (present : (graph.addBranch frontier pieces).1[id]? = some node') (mem : hop ∈ node'.hops) :
    (∃ node, graph[id]? = some node ∧ hop ∈ node.hops) ∨
      ∃ piece ∈ pieces, piece.atom = .group hop.group hop.label := by
  induction pieces generalizing graph frontier with
  | nil => exact Or.inl ⟨node', present, mem⟩
  | cons piece pieces ih =>
    obtain ⟨graph', reached, eq, swept⟩ := addPiece_spec proper frontier piece
    unfold addBranch at present
    rw [eq] at present
    rcases ih swept.proper _ present with ⟨node, between, old⟩ | ⟨later, among, link⟩
    · rcases swept.hop id node hop between old with old | ⟨-, -, link, -⟩
      · exact Or.inl old
      · exact Or.inr ⟨piece, List.mem_cons_self, link⟩
    · exact Or.inr ⟨later, List.mem_cons_of_mem _ among, link⟩

theorem addBranches_hop (proper : graph.Proper) (frontier : List Nat) (branches : Branches Link)
    (id : Nat) (node' : Node Group ν) (hop : Hop Group)
    (present : (graph.addBranches frontier branches).1[id]? = some node')
    (mem : hop ∈ node'.hops) : (∃ node, graph[id]? = some node ∧ hop ∈ node.hops) ∨
      ∃ branch ∈ branches, ∃ piece ∈ branch, piece.atom = .group hop.group hop.label := by
  induction branches generalizing graph with
  | nil => exact Or.inl ⟨node', present, mem⟩
  | cons branch branches ih =>
    rcases ih (addBranch_grows proper frontier branch).2 present with
      ⟨node, between, old⟩ | ⟨later, among, new⟩
    · rcases addBranch_hop proper frontier branch id node hop between old with old | new
      · exact Or.inl old
      · exact Or.inr ⟨branch, List.mem_cons_self, new⟩
    · exact Or.inr ⟨later, List.mem_cons_of_mem _ among, new⟩

theorem addValue_getElem? (ends : List Nat) (v : ν) (id : Nat) :
    (graph.addValue ends v)[id]? =
      graph[id]?.map fun node => if id ∈ ends then node.addValue v else node := by
  unfold addValue
  induction ends generalizing graph with
  | nil => simp
  | cons first ends ih =>
    rw [List.foldl_cons, ih, Array.getElem?_modify]
    by_cases same : first = id
    · subst same
      cases graph[first]? with
      | none => simp
      | some node => cases known : node.value <;> simp [Node.addValue, known]
    · simp [same, Ne.symm same]

theorem extends_addValue (ends : List Nat) (v : ν) : graph.Extends (graph.addValue ends v) := by
  intro id node present
  refine ⟨if id ∈ ends then node.addValue v else node, ?_, ?_⟩
  · rw [addValue_getElem?, present]
    rfl
  · split
    · exact Node.extends_addValue v
    · exact .refl node

theorem addValue_links (ends : List Nat) (v : ν) (id : Nat) (node' : Node Group ν)
    (present : (graph.addValue ends v)[id]? = some node') :
    ∃ node, graph[id]? = some node ∧ node.edges = node'.edges ∧ node.hops = node'.hops ∧
      ∀ w, node'.value = some w → node.value = some w ∨ id ∈ ends ∧ w = v := by
  rw [addValue_getElem?] at present
  obtain ⟨node, before, rfl⟩ := Option.map_eq_some_iff.1 present
  refine ⟨node, before, ?_⟩
  split
  · rename_i mem
    refine ⟨rfl, rfl, fun w known => ?_⟩
    unfold Node.addValue at known
    rcases Option.or_eq_some_iff.1 known with old | ⟨-, new⟩
    · exact Or.inl old
    · exact Or.inr ⟨mem, (Option.some.inj new).symm⟩
  · exact ⟨rfl, rfl, fun w known => Or.inl known⟩

theorem size_addValue (ends : List Nat) (v : ν) : (graph.addValue ends v).size = graph.size := by
  unfold addValue
  induction ends generalizing graph with
  | nil => rfl
  | cons first ends ih => rw [List.foldl_cons, ih, Array.size_modify]

theorem proper_addValue (proper : graph.Proper) (ends : List Nat) (v : ν) :
    (graph.addValue ends v).Proper := by
  refine ⟨?_, fun id node' c next present leads => ?_, fun id node' hop present mem => ?_⟩
  · rw [size_addValue]
    exact proper.nonempty
  · obtain ⟨node, before, edges, -, -⟩ := addValue_links ends v id node' present
    rw [size_addValue]
    unfold Node.edge? at leads
    rw [← edges] at leads
    exact proper.edge id node c next before leads
  · obtain ⟨node, before, -, hops, -⟩ := addValue_links ends v id node' present
    rw [size_addValue]
    exact proper.hop id node hop before (hops ▸ mem)

theorem proper_empty : (Graph.empty : Graph Group ν).Proper := by
  refine ⟨by simp [empty], fun id node c next present leads => ?_, fun id node hop present mem => ?_⟩
  · obtain ⟨inside, rfl⟩ := Array.getElem?_eq_some_iff.1 present
    simp [empty] at leads
  · obtain ⟨inside, rfl⟩ := Array.getElem?_eq_some_iff.1 present
    simp [empty, Node.blank] at mem

theorem addPattern_grows (proper : graph.Proper) (branches : Branches Link) (v : ν) :
    graph.Extends (graph.addPattern branches v) ∧ (graph.addPattern branches v).Proper := by
  have links := addBranches_grows proper [0] branches
  exact ⟨links.1.trans (extends_addValue _ v), proper_addValue links.2 _ v⟩

theorem addPattern_value (proper : graph.Proper) (branches : Branches Link) (v : ν) (id : Nat)
    (node' : Node Group ν) (w : ν) (present : (graph.addPattern branches v)[id]? = some node')
    (known : node'.value = some w) :
    (∃ node, graph[id]? = some node ∧ node.value = some w) ∨
      w = v ∧ id ∈ (graph.addBranches [0] branches).2 := by
  obtain ⟨node, before, -, -, values⟩ := addValue_links _ v id node' present
  rcases values w known with old | ⟨mem, new⟩
  · exact Or.inl (addBranches_value proper [0] branches id node w before old)
  · exact Or.inr ⟨new, mem⟩

theorem addPattern_hop (proper : graph.Proper) (branches : Branches Link) (v : ν) (id : Nat)
    (node' : Node Group ν) (hop : Hop Group)
    (present : (graph.addPattern branches v)[id]? = some node') (mem : hop ∈ node'.hops) :
    (∃ node, graph[id]? = some node ∧ hop ∈ node.hops) ∨
      ∃ branch ∈ branches, ∃ piece ∈ branch, piece.atom = .group hop.group hop.label := by
  obtain ⟨node, before, -, hops, -⟩ := addValue_links _ v id node' present
  exact addBranches_hop proper [0] branches id node hop before (hops ▸ mem)

theorem addPattern_ends (branches : Branches Link) (v : ν) (id : Nat)
    (mem : id ∈ (graph.addBranches [0] branches).2) (node : Node Group ν)
    (present : (graph.addPattern branches v)[id]? = some node) : node.value.isSome := by
  unfold addPattern at present
  dsimp only at present
  rw [addValue_getElem?] at present
  obtain ⟨before, -, rfl⟩ := Option.map_eq_some_iff.1 present
  rw [if_pos mem]
  unfold Node.addValue
  cases before.value <;> rfl

/-! ## What a frontier has read

`leads id x` says that `x` leads to the node `id`, whatever it is made of. The lemmas carry a language
from the frontier before a piece to the one after it, one step along the link at a time. -/

section Frontier

variable {σ : Type} {frontier reached : List Nat} {link : Link} {more : Bool}
  {quantifier : Quantifier} (leads : Nat → List σ → Prop) {past l : Language σ}

theorem Swept.reaches (swept : graph.Swept frontier link more graph' reached)
    (before : ∀ x ∈ past, ∃ id ∈ frontier, leads id x)
    (step : ∀ id ∈ sources frontier reached more, ∀ x, leads id x → ∀ u ∈ l,
      ∃ next, graph'.Goes link id next ∧ leads next (x ++ u)) :
    ∀ x ∈ past * l * again more l, ∃ id ∈ reached, leads id x := by
  let good : Language σ := {x | ∃ id ∈ reached, leads id x}
  have once : past * l ≤ good := by
    rintro _ ⟨x, mem, u, reads, rfl⟩
    obtain ⟨id, start, here⟩ := before x mem
    have source := start_mem_sources reached more start
    obtain ⟨next, goes, there⟩ := step id source x here u reads
    exact ⟨next, swept.goes id source next goes, there⟩
  show past * l * again more l ≤ good
  cases more with
  | false => simpa [again] using once
  | true =>
    refine mul_kstar_le once ?_
    rintro _ ⟨x, ⟨id, among, here⟩, u, reads, rfl⟩
    have source := reached_mem_sources frontier rfl among
    obtain ⟨next, goes, there⟩ := step id source x here u reads
    exact ⟨next, swept.goes id source next goes, there⟩

theorem Swept.sources_of_mem (swept : graph.Swept frontier link more graph' reached)
    (before : ∀ x ∈ past, ∃ id ∈ frontier, leads id x)
    (step : ∀ id ∈ sources frontier reached more, ∀ x, leads id x → ∀ u ∈ l,
      ∃ next, graph'.Goes link id next ∧ leads next (x ++ u)) :
    ∀ x ∈ past * again more l, ∃ id ∈ sources frontier reached more, leads id x := by
  intro x mem
  rcases mem_mul_again_iff.1 mem with mem | ⟨more, mem⟩
  · obtain ⟨id, start, here⟩ := before x mem
    exact ⟨id, start_mem_sources _ _ start, here⟩
  · obtain ⟨id, among, here⟩ := swept.reaches leads before step x mem
    exact ⟨id, reached_mem_sources _ more among, here⟩

/-- Every text read before a piece, with every text of the piece after it, leads to the nodes
after the piece. -/
theorem Swept.covers
    (swept : graph.Swept frontier link quantifier.allowsMore graph' reached)
    (before : ∀ x ∈ past, ∃ id ∈ frontier, leads id x)
    (step : ∀ id ∈ sources frontier reached quantifier.allowsMore, ∀ x, leads id x → ∀ u ∈ l,
      ∃ next, graph'.Goes link id next ∧ leads next (x ++ u)) :
    ∀ x ∈ past * quantifier.language l,
      ∃ id ∈ (if quantifier.allowsNone then joinNodes reached frontier else reached), leads id x := by
  intro x mem
  rcases (quantifier.mem_mul_language past l x).1 mem with ⟨none, mem⟩ | mem
  · obtain ⟨id, start, here⟩ := before x mem
    exact ⟨id, (mem_after _ _ _ _).2 (Or.inr ⟨none, start⟩), here⟩
  · obtain ⟨id, among, here⟩ := swept.reaches leads before step x mem
    exact ⟨id, (mem_after _ _ _ _).2 (Or.inl among), here⟩

theorem Swept.reached_of (swept : graph.Swept frontier link more graph' reached)
    (before : ∀ id ∈ frontier, ∃ x ∈ past, leads id x)
    (step : ∀ id x, leads id x → ∀ next, graph'.Goes link id next →
      ∃ u ∈ l, leads next (x ++ u)) :
    ∀ id ∈ reached, ∃ x ∈ past * l * again more l, leads id x := by
  intro id among
  obtain ⟨first, start, second, goes, steps⟩ := swept.comes id among
  obtain ⟨x, mem, here⟩ := before first start
  obtain ⟨u, reads, there⟩ := step first x here second goes
  have once := Language.append_mem_mul mem reads
  cases more with
  | false =>
    obtain rfl : id = second := by simpa using steps
    exact ⟨x ++ u, mem_mul_again _ once, there⟩
  | true =>
    rw [if_pos rfl] at steps
    clear among
    induction steps with
    | refl => exact ⟨x ++ u, mem_mul_again _ once, there⟩
    | tail _ goes ih =>
      obtain ⟨y, mem, here⟩ := ih
      obtain ⟨v, reads, there⟩ := step _ y here _ goes
      exact ⟨y ++ v, mul_again_mul mem reads, there⟩

theorem Swept.mem_of_sources (swept : graph.Swept frontier link more graph' reached)
    (before : ∀ id ∈ frontier, ∃ x ∈ past, leads id x)
    (step : ∀ id x, leads id x → ∀ next, graph'.Goes link id next →
      ∃ u ∈ l, leads next (x ++ u)) :
    ∀ id ∈ sources frontier reached more, ∃ x ∈ past * again more l, leads id x := by
  intro id source
  rcases mem_sources.1 source with start | ⟨may, among⟩
  · obtain ⟨x, mem, here⟩ := before id start
    exact ⟨x, mem_mul_again_iff.2 (.inl mem), here⟩
  · obtain ⟨x, mem, here⟩ := swept.reached_of leads before step id among
    exact ⟨x, mem_mul_again_iff.2 (.inr ⟨may, mem⟩), here⟩

theorem Swept.comes_of
    (swept : graph.Swept frontier link quantifier.allowsMore graph' reached)
    (before : ∀ id ∈ frontier, ∃ x ∈ past, leads id x)
    (step : ∀ id x, leads id x → ∀ next, graph'.Goes link id next →
      ∃ u ∈ l, leads next (x ++ u)) :
    ∀ id ∈ (if quantifier.allowsNone then joinNodes reached frontier else reached),
      ∃ x ∈ past * quantifier.language l, leads id x := by
  intro id after
  simp only [Quantifier.mem_mul_language]
  rcases (mem_after _ _ _ _).1 after with among | ⟨none, start⟩
  · obtain ⟨x, mem, here⟩ := swept.reached_of leads before step id among
    exact ⟨x, Or.inr mem, here⟩
  · obtain ⟨x, mem, here⟩ := before id start
    exact ⟨x, Or.inl ⟨none, mem⟩, here⟩

end Frontier

end Graph

end OpGrammar
