import OpGrammar.Proofs.Nesting
import OpGrammar.Proofs.Values

/-!
# Values kept aside

A graph may keep its values in a row of their own, with the place of a value at a node in place of
the value. The row is filled as patterns are added: a value is kept once if it is kept at all, and
every place that a node has is one of the row.
-/

namespace OpGrammar

variable {ν : Type}

/-! ## Stores -/

/-- A graph with the places of its values, and the row of the values. -/
structure Store (ν : Type) where
  nodes : Graph Group Nat
  values : Array ν

/-- The nodes are the same, but the first has the place of the value of the second. -/
structure Node.Stands (values : Array ν) (node : Node Group Nat) (node' : Node Group ν) : Prop where
  edges : node.edges = node'.edges
  hops : node.hops = node'.hops
  value : node.value.map (values[·]?) = node'.value.map some

theorem Node.stands_iff {values : Array ν} {node : Node Group Nat} {node' : Node Group ν} :
    node.Stands values node' ↔
      node.revalue (Option.map (values[·]?)) = node'.revalue (Option.map some) := by
  constructor
  · rintro ⟨edges, hops, value⟩
    simp only [Node.revalue, edges, hops, value]
  · intro same
    obtain ⟨edges, hops, value⟩ := Node.mk.inj same
    exact ⟨edges, hops, value⟩

namespace Node.Stands

variable {values : Array ν} {node : Node Group Nat} {node' : Node Group ν}

theorem place_lt (stands : node.Stands values node') {place : Nat}
    (known : node.value = some place) : place < values.size := by
  have value := stands.value
  rw [known] at value
  obtain ⟨v, -, there⟩ := Option.map_eq_some_iff.1 value.symm
  exact (Array.getElem?_eq_some_iff.1 there.symm).1

theorem push (stands : node.Stands values node') (value : ν) :
    node.Stands (values.push value) node' := by
  refine ⟨stands.edges, stands.hops, ?_⟩
  rw [← stands.value]
  refine Option.map_congr fun place known => ?_
  rw [Array.getElem?_push, if_neg (Nat.ne_of_lt (stands.place_lt known))]

theorem addValue (stands : node.Stands values node') (value : ν) :
    (node.addValue values.size).Stands (values.push value) (node'.addValue value) := by
  have value_push := (stands.push value).value
  refine ⟨stands.edges, stands.hops, ?_⟩
  unfold Node.addValue
  cases known : node.value <;> cases known' : node'.value <;> rw [known, known'] at value_push <;>
    simp_all

theorem addValue_eq (stands : node.Stands values node') (full : node.value.isSome) (value : ν) :
    node'.addValue value = node' := by
  have there := congrArg Option.isSome stands.value
  simp only [Option.isSome_map, full] at there
  obtain ⟨edges, hops, v⟩ := node'
  obtain ⟨v, rfl⟩ := Option.isSome_iff_exists.1 there.symm
  rfl

end Node.Stands

namespace Store

/-- The store of the graph that matches nothing at all. -/
def empty : Store ν := ⟨Graph.empty, #[]⟩

/-- Gives the value to those nodes of a list that have none. It is kept once if there are any. -/
def mark (store : Store ν) (ends : List Nat) (value : ν) : Store ν :=
  if ends.any fun id => store.nodes[id]?.any (·.value.isNone) then
    ⟨store.nodes.addValue ends store.values.size, store.values.push value⟩
  else store

def addPattern (store : Store ν) (branches : Branches Link) (value : ν) : Store ν :=
  let (nodes, ends) := store.nodes.addBranches [0] branches
  mark ⟨nodes, store.values⟩ ends value

/-- Every link leads to a node other than the first, and every place to a value. -/
structure Sound (store : Store ν) : Prop where
  proper : store.nodes.Proper
  value : ∀ (id : Nat) (node : Node Group Nat) place, store.nodes[id]? = some node →
    node.value = some place → place < store.values.size

/-- With the values in place of their places, the store is this graph. -/
def Reads (store : Store ν) (graph : Graph Group ν) : Prop :=
  store.nodes.mapValue (store.values[·]?) = graph.mapValue some

section Reads

variable {store : Store ν} {graph : Graph Group ν}

theorem reads_iff : store.Reads graph ↔
    ∀ id : Nat, Option.Rel (Node.Stands store.values) store.nodes[id]? graph[id]? := by
  have here (id : Nat) : Option.Rel (Node.Stands store.values) store.nodes[id]? graph[id]? ↔
      (store.nodes.mapValue (store.values[·]?))[id]? = (graph.mapValue some)[id]? := by
    rw [Graph.getElem?_mapValue, Graph.getElem?_mapValue]
    cases store.nodes[id]? <;> cases graph[id]? <;> simp [Node.stands_iff]
  simp only [here]
  exact ⟨fun reads id => congrArg (·[id]?) reads, Array.ext_getElem?⟩

theorem Reads.node_cases (reads : store.Reads graph) (id : Nat) :
    store.nodes[id]? = none ∧ graph[id]? = none ∨
      ∃ node node', store.nodes[id]? = some node ∧ graph[id]? = some node' ∧
        node.Stands store.values node' := by
  have here := reads_iff.1 reads id
  generalize store.nodes[id]? = node, graph[id]? = node' at here
  cases here with
  | none => exact .inl ⟨rfl, rfl⟩
  | some stands => exact .inr ⟨_, _, rfl, rfl, stands⟩

theorem reads_empty : (empty : Store ν).Reads Graph.empty := by
  rw [Reads, Graph.empty_mapValue]
  exact Graph.empty_mapValue _

theorem Reads.proper (reads : store.Reads graph) (proper : graph.Proper) :
    store.nodes.Proper := by
  rw [← Graph.proper_mapValue (store.values[·]?), reads, Graph.proper_mapValue]
  exact proper

theorem Reads.sound (reads : store.Reads graph) (proper : graph.Proper) : store.Sound := by
  refine ⟨reads.proper proper, fun id node place present known => ?_⟩
  rcases reads.node_cases id with ⟨absent, -⟩ | ⟨node, twin, there, -, stands⟩
  · rw [absent] at present
    cases present
  · obtain rfl := Option.some.inj (present.symm.trans there)
    exact stands.place_lt known

theorem Reads.addBranches (reads : store.Reads graph) (branches : Branches Link) :
    (⟨(store.nodes.addBranches [0] branches).1, store.values⟩ : Store ν).Reads
        (graph.addBranches [0] branches).1 ∧
      (store.nodes.addBranches [0] branches).2 = (graph.addBranches [0] branches).2 := by
  have first := store.nodes.addBranches_mapValue (store.values[·]?) [0] branches
  have second := graph.addBranches_mapValue some [0] branches
  rw [reads, second] at first
  obtain ⟨nodes, ends⟩ := Prod.mk.inj first
  exact ⟨nodes.symm, ends.symm⟩

theorem Reads.mark (reads : store.Reads graph) (ends : List Nat) (value : ν) :
    (store.mark ends value).Reads (graph.addValue ends value) := by
  refine reads_iff.2 fun id => ?_
  rw [Graph.addValue_getElem?]
  unfold Store.mark
  rcases reads.node_cases id with ⟨absent, absent'⟩ | ⟨node, node', present, present', stands⟩
  · rw [absent']
    split
    · rw [Graph.addValue_getElem?, absent]
      exact .none
    · rw [absent]
      exact .none
  · rw [present', Option.map_some]
    split
    · rw [Graph.addValue_getElem?, present, Option.map_some]
      split
      · exact .some (stands.addValue value)
      · exact .some (stands.push value)
    · rename_i full
      rw [present]
      split
      · rename_i mem
        have there : node.value.isSome := by
          by_contra free
          refine full (List.any_eq_true.2 ⟨id, mem, ?_⟩)
          simpa [present] using free
        rw [stands.addValue_eq there]
        exact .some stands
      · exact .some stands

theorem Reads.addPattern (reads : store.Reads graph) (branches : Branches Link) (value : ν) :
    (store.addPattern branches value).Reads (graph.addPattern branches value) := by
  obtain ⟨links, ends⟩ := reads.addBranches branches
  unfold Store.addPattern Graph.addPattern
  dsimp only
  rw [ends]
  exact links.mark _ value

end Reads

end Store

/-! ## The store of a lexicon -/

namespace Lexicon

/-- The store after an entry. Only a pattern that is taken adds to it. -/
def storeAfter (lexicon : Lexicon ν) (store : Store ν) : Entry ν → Store ν
  | .meaning _ _ => store
  | .pattern text value =>
    match Pattern.read text with
    | .error _ => store
    | .ok pattern =>
      match pattern.links lexicon.meanings lexicon.inlineGroups with
      | .error _ _ => store
      | .ok branches _ =>
        if lexicon.Accepts (.pattern text value) then store.addPattern branches value else store

/-- The store that some entries make, those left out that are refused. -/
def storeOf (entries : List (Entry ν)) : Store ν :=
  (entries.foldl (fun state entry => (state.1.extend entry, storeAfter state.1 state.2 entry))
    (empty, Store.empty)).2

theorem storeOf_concat (entries : List (Entry ν)) (entry : Entry ν) :
    storeOf (entries ++ [entry]) = storeAfter (ofEntries entries) (storeOf entries) entry := by
  rw [storeOf, List.foldl_concat, fst_foldl_extend, storeOf]

theorem storeAfter_reads {lexicon : Lexicon ν} {store : Store ν}
    (reads : store.Reads lexicon.graph) (entry : Entry ν) :
    (storeAfter lexicon store entry).Reads (lexicon.extend entry).graph := by
  have left_out (refused : ¬lexicon.Accepts entry) :
      (lexicon.extend entry).graph = lexicon.graph := by
    rcases extend_graph lexicon entry with same | ⟨_, _, _, _, _, -, accepts, -⟩
    · exact same
    · exact absurd accepts refused
  cases entry with
  | meaning name text =>
    rcases extend_graph lexicon (.meaning name text) with same | ⟨_, _, _, _, _, other, -⟩
    · rw [same]
      exact reads
    · cases other
  | pattern text value =>
    by_cases accepts : lexicon.Accepts (.pattern text value)
    · obtain ⟨pattern, branches, groups, read, -, links, same⟩ :=
        extend_of_accepts lexicon text value accepts
      simp only [storeAfter, read, links, accepts, if_true, same]
      exact reads.addPattern branches value
    · rw [left_out accepts]
      unfold storeAfter
      dsimp only
      split
      · exact reads
      · split
        · exact reads
        · rw [if_neg accepts]
          exact reads

theorem storeOf_reads (entries : List (Entry ν)) :
    (storeOf entries).Reads (ofEntries entries).graph := by
  induction entries using List.reverseRecOn with
  | nil => exact Store.reads_empty
  | append_singleton entries entry ih =>
    rw [storeOf_concat, ofEntries_concat]
    exact storeAfter_reads ih entry

end Lexicon

/-! ## The store of a group -/

namespace Group

/-- The graph of the group as a store. There is no other value than one. -/
def store (group : Group) : Store Unit :=
  ⟨group.graph.mapValue fun _ => 0,
    if group.graph.any (·.value.isSome) then #[()] else #[]⟩

theorem store_reads (group : Group) : group.store.Reads group.graph := by
  refine Store.reads_iff.2 fun id => ?_
  unfold store
  rw [Graph.getElem?_mapValue]
  cases present : group.graph[id]? with
  | none => exact .none
  | some node =>
    refine .some ⟨rfl, rfl, ?_⟩
    cases known : node.value with
    | none => simp [Node.revalue, known]
    | some v =>
      have there : group.graph.any (·.value.isSome) = true :=
        Array.any_eq_true'.2 ⟨node, Array.mem_of_getElem? present, by simp [known]⟩
      rw [if_pos there]
      simp [Node.revalue, known]

theorem any_addValue {nodes : Graph Group Unit}
    (none_yet : ∀ (id : Nat) (node : Node Group Unit), nodes[id]? = some node → node.value = none)
    (ends : List Nat) :
    (nodes.addValue ends ()).any (·.value.isSome) =
      ends.any fun id => (nodes.mapValue fun _ => 0)[id]?.any (·.value.isNone) := by
  rw [Bool.eq_iff_iff, Array.any_eq_true', List.any_eq_true]
  constructor
  · rintro ⟨node', mem, known⟩
    obtain ⟨id, present⟩ := Array.getElem?_of_mem mem
    obtain ⟨v, known⟩ := Option.isSome_iff_exists.1 known
    obtain ⟨node, before, -, -, values⟩ := Graph.addValue_links ends () id node' present
    have free := none_yet id node before
    rcases values v known with old | ⟨among, -⟩
    · rw [free] at old
      cases old
    · exact ⟨id, among, by simp [before, Node.revalue, free]⟩
  · rintro ⟨id, mem, free⟩
    obtain ⟨node, present, -⟩ := (Option.any_eq_true _ _).1 free
    rw [Graph.getElem?_mapValue] at present
    obtain ⟨node, before, rfl⟩ := Option.map_eq_some_iff.1 present
    have there : (nodes.addValue ends ())[id]? = some (node.addValue ()) := by
      rw [Graph.addValue_getElem?, before, Option.map_some, if_pos mem]
    refine ⟨_, Array.mem_of_getElem? there, ?_⟩
    simp [Node.addValue, none_yet id node before]

theorem store_ofBranches (id : GroupId) (branches : Branches Link) :
    (Group.ofBranches id branches).store = Store.empty.addPattern branches () := by
  have none_yet (id : Nat) (node : Node Group Unit)
      (present : ((Graph.empty : Graph Group Unit).addBranches [0] branches).1[id]? = some node) :
      node.value = none := by
    by_contra known
    obtain ⟨v, known⟩ := Option.ne_none_iff_exists'.1 known
    obtain ⟨node', before, old⟩ :=
      Graph.addBranches_value Graph.proper_empty [0] branches id node v present known
    obtain ⟨inside, rfl⟩ := Array.getElem?_eq_some_iff.1 before
    simp [Graph.empty, Node.blank] at old
  have graph_eq : (Group.ofBranches id branches).graph =
      ((Graph.empty : Graph Group Unit).addBranches [0] branches).1.addValue
        ((Graph.empty : Graph Group Unit).addBranches [0] branches).2 () := rfl
  have alongside := (Graph.empty : Graph Group Unit).addBranches_mapValue (fun _ => 0) [0] branches
  rw [Graph.empty_mapValue] at alongside
  rw [store, graph_eq, any_addValue none_yet, Store.addPattern]
  simp only [Store.empty, alongside, Store.mark]
  generalize (Graph.empty : Graph Group Unit).addBranches [0] branches = links at none_yet
  obtain ⟨nodes, ends⟩ := links
  split
  · exact congrArg (Store.mk · #[()]) (nodes.addValue_mapValue (fun _ => 0) ends ()).symm
  · rename_i full
    refine congrArg (Store.mk · #[]) ?_
    refine Array.ext_getElem? fun id => ?_
    rw [Graph.getElem?_mapValue, Graph.getElem?_mapValue, Graph.addValue_getElem?]
    cases present : nodes[id]? with
    | none => rfl
    | some node =>
      have other : id ∉ ends := by
        intro mem
        refine full (List.any_eq_true.2 ⟨id, mem, ?_⟩)
        simp [present, Node.revalue, none_yet id node present]
      rw [Option.map_some, if_neg other]

end Group

end OpGrammar
