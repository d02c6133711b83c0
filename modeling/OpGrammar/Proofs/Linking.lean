import OpGrammar.Lexicon.Growth

/-!
# What a link adds

A node with one more link, and a graph with the link at some of its nodes: what is there stays, and
nothing but the link is new.
-/

namespace OpGrammar

variable {ν : Type}

/-! ## Links of a node -/

namespace Node

variable {node : Node Group ν}

theorem mem_targets_chars (items : List ClassItem) (m : Nat) :
    m ∈ node.targets (.chars items) ↔
      ∃ c, (∃ item ∈ items, item.contains c) ∧ node.edge? c = some m := by
  simp [targets, ClassItem.mem_chars]

theorem mem_targets_group (group : Group) (label : Option Text) (m : Nat) :
    m ∈ node.targets (.group group label) ↔ node.hop? group label = some m := by
  simp [targets]

/-- The link leads somewhere from the node, whatever it reads. -/
def Has (node : Node Group ν) : Link → Prop
  | .chars items => ∀ item ∈ items, ∀ c, item.contains c → (node.edge? c).isSome
  | .group group label => (node.hop? group label).isSome

theorem hasLink_iff {link : Link} : node.hasLink link ↔ node.Has link := by
  cases link with
  | chars items => simp [hasLink, Has, ClassItem.mem_chars]
  | group group label => rfl

theorem edge?_append (edges more : List (ClassItem × Nat)) (hops : List (Hop Group))
    (value : Option ν) (c : Char) :
    (⟨edges ++ more, hops, value⟩ : Node Group ν).edge? c =
      ((⟨edges, hops, value⟩ : Node Group ν).edge? c).or
        ((more.find? (·.1.contains c)).map (·.2)) := by
  unfold edge?
  rw [List.find?_append]
  cases edges.find? (·.1.contains c) <;> rfl

theorem edge?_addLink_chars (fresh : Nat) (items : List ClassItem) (c : Char) :
    (node.addLink fresh (.chars items)).edge? c =
      (node.edge? c).or (if ∃ item ∈ items, item.contains c then some fresh else none) := by
  unfold addLink
  dsimp only
  rw [edge?_append]
  cases known : node.edge? c with
  | some next => rfl
  | none =>
    simp only [Option.none_or]
    split
    · -- The item is missing, since this character of it leads nowhere.
      rename_i read
      obtain ⟨item, mem, has⟩ := read
      rw [List.find?_map, Option.map_map, Option.map_eq_some_iff]
      suffices (List.find? ((fun edge => edge.1.contains c) ∘ (·, fresh))
          (items.filter fun item => item.chars.any fun c => (node.edge? c).isNone)).isSome by
        obtain ⟨found, eq⟩ := Option.isSome_iff_exists.1 this
        exact ⟨found, eq, rfl⟩
      refine List.find?_isSome.2 ⟨item, List.mem_filter.2 ⟨mem, ?_⟩, has⟩
      exact List.any_eq_true.2 ⟨c, ClassItem.mem_chars.2 has, by simp [known]⟩
    · rename_i unread
      rw [Option.map_eq_none_iff, List.find?_eq_none]
      rintro _ among has
      obtain ⟨item, mem, rfl⟩ := List.mem_map.1 among
      exact unread ⟨item, (List.mem_filter.1 mem).1, has⟩

theorem edges_addLink_group (fresh : Nat) (group : Group) (label : Option Text) :
    (node.addLink fresh (.group group label)).edges = node.edges := by
  unfold addLink
  dsimp only
  split <;> rfl

theorem hops_addLink_group (fresh : Nat) (group : Group) (label : Option Text) :
    (node.addLink fresh (.group group label)).hops =
      node.hops ++ if (node.hop? group label).isSome then [] else [⟨group, label, fresh⟩] := by
  unfold addLink
  dsimp only
  split <;> simp

@[simp] theorem value_addLink (fresh : Nat) (link : Link) :
    (node.addLink fresh link).value = node.value := by
  cases link with
  | chars items => rfl
  | group group label =>
    unfold addLink
    dsimp only
    split <;> rfl

theorem has_addLink (fresh : Nat) (link : Link) : (node.addLink fresh link).Has link := by
  cases link with
  | chars items =>
    intro item mem c has
    rw [edge?_addLink_chars, if_pos ⟨item, mem, has⟩]
    cases node.edge? c <;> rfl
  | group group label =>
    unfold Has addLink
    dsimp only
    split
    · assumption
    · simp [hop?, List.find?_append, Hop.goesThrough]

theorem addLink_of_has (fresh : Nat) (link : Link) (has : node.Has link) :
    node.addLink fresh link = node := by
  cases link with
  | chars items =>
    have none_missing :
        (items.filter fun item => item.chars.any fun c => (node.edge? c).isNone) = [] := by
      refine List.filter_eq_nil_iff.2 fun item mem missing => ?_
      obtain ⟨c, read, leads⟩ := List.any_eq_true.1 missing
      have := has item mem c (ClassItem.mem_chars.1 read)
      cases found : node.edge? c <;> simp_all
    simp [addLink, none_missing]
  | group group label => exact if_pos has

/-! ## What stays -/

/-- Everything at the first node is also at the second. -/
structure Extends (node node' : Node Group ν) : Prop where
  edges : node.edges <+: node'.edges
  hops : node.hops <+: node'.hops
  value : ∀ v, node.value = some v → node'.value = some v

namespace Extends

variable {node' node'' : Node Group ν}

theorem refl (node : Node Group ν) : node.Extends node :=
  ⟨List.prefix_rfl, List.prefix_rfl, fun _ h => h⟩

theorem trans (h : node.Extends node') (h' : node'.Extends node'') : node.Extends node'' :=
  ⟨h.edges.trans h'.edges, h.hops.trans h'.hops, fun v known => h'.value v (h.value v known)⟩

theorem edge? (h : node.Extends node') (c : Char) (next : Nat) (known : node.edge? c = some next) :
    node'.edge? c = some next := by
  obtain ⟨more, eq⟩ := h.edges
  unfold Node.edge? at known ⊢
  obtain ⟨edge, found, rfl⟩ := Option.map_eq_some_iff.1 known
  rw [← eq, List.find?_append, found]
  rfl

theorem hop? (h : node.Extends node') (group : Group) (label : Option Text) (next : Nat)
    (known : node.hop? group label = some next) : node'.hop? group label = some next := by
  obtain ⟨more, eq⟩ := h.hops
  unfold Node.hop? at known ⊢
  obtain ⟨hop, found, rfl⟩ := Option.map_eq_some_iff.1 known
  rw [← eq, List.find?_append, found]
  rfl

theorem targets (h : node.Extends node') (link : Link) (m : Nat) (known : m ∈ node.targets link) :
    m ∈ node'.targets link := by
  cases link with
  | chars items =>
    obtain ⟨c, reads, found⟩ := (mem_targets_chars items m).1 known
    exact (mem_targets_chars items m).2 ⟨c, reads, h.edge? c m found⟩
  | group group label =>
    exact (mem_targets_group group label m).2
      (h.hop? group label m ((mem_targets_group group label m).1 known))

end Extends

theorem extends_addLink (fresh : Nat) (link : Link) : node.Extends (node.addLink fresh link) := by
  cases link with
  | chars items => exact ⟨List.prefix_append _ _, List.prefix_rfl, fun _ h => h⟩
  | group group label =>
    refine ⟨?_, ?_, fun v known => ?_⟩
    · simp only [edges_addLink_group, List.prefix_rfl]
    · rw [hops_addLink_group]
      exact List.prefix_append _ _
    · rw [value_addLink, known]

theorem extends_addValue (v : ν) : node.Extends (node.addValue v) := by
  refine ⟨List.prefix_rfl, List.prefix_rfl, fun w known => ?_⟩
  simp [addValue, known]

end Node

namespace Graph

variable {graph graph' graph'' : Graph Group ν}

/-- Every node of the first graph is in the second one, with everything that it had. -/
def Extends (graph graph' : Graph Group ν) : Prop :=
  ∀ (id : Nat) (node : Node Group ν), graph[id]? = some node →
    ∃ node', graph'[id]? = some node' ∧ node.Extends node'

theorem Extends.refl (graph : Graph Group ν) : graph.Extends graph :=
  fun _ node present => ⟨node, present, .refl node⟩

theorem Extends.trans (h : graph.Extends graph') (h' : graph'.Extends graph'') :
    graph.Extends graph'' := by
  intro id node present
  obtain ⟨node', present', more⟩ := h id node present
  obtain ⟨node'', present'', more'⟩ := h' id node' present'
  exact ⟨node'', present'', more.trans more'⟩

theorem Extends.size_le (grown : graph.Extends graph') : graph.size ≤ graph'.size := by
  refine Nat.le_of_not_lt fun inside => ?_
  obtain ⟨node, present, -⟩ := grown graph'.size _ (Array.getElem?_eq_getElem inside)
  rw [Array.getElem?_eq_none (Nat.le_refl _)] at present
  cases present

/-- Every link leads to a node of the graph, and none leads back to the first. -/
structure Proper (graph : Graph Group ν) : Prop where
  nonempty : 0 < graph.size
  edge : ∀ (id : Nat) (node : Node Group ν) c next, graph[id]? = some node →
    node.edge? c = some next → 0 < next ∧ next < graph.size
  hop : ∀ (id : Nat) (node : Node Group ν) hop, graph[id]? = some node → hop ∈ node.hops →
    0 < hop.next ∧ hop.next < graph.size

/-- Whether the link leads from one node to another. -/
def Goes (graph : Graph Group ν) (link : Link) (id next : Nat) : Prop :=
  ∃ node, graph[id]? = some node ∧ next ∈ node.targets link

theorem Extends.goes (h : graph.Extends graph') (link : Link) (id next : Nat)
    (goes : graph.Goes link id next) : graph'.Goes link id next := by
  obtain ⟨node, present, target⟩ := goes
  obtain ⟨node', present', more⟩ := h id node present
  exact ⟨node', present', more.targets link next target⟩

theorem mem_targets (frontier : List Nat) (link : Link) (next : Nat) :
    next ∈ graph.targets frontier link ↔ ∃ id ∈ frontier, graph.Goes link id next := by
  have step (found : List Nat) : next ∈ frontier.foldl
      (fun found id => joinNodes found ((graph[id]?.map (·.targets link)).getD [])) found ↔
        next ∈ found ∨ ∃ id ∈ frontier, graph.Goes link id next := by
    induction frontier generalizing found with
    | nil => simp
    | cons id frontier ih =>
      have here : next ∈ (graph[id]?.map (·.targets link)).getD [] ↔ graph.Goes link id next := by
        unfold Goes
        cases graph[id]? <;> simp
      rw [List.foldl_cons, ih, mem_joinNodes, here, or_assoc]
      simp
  simpa [targets] using step []

theorem nodup_targets (frontier : List Nat) (link : Link) :
    (graph.targets frontier link).Nodup := by
  have step (found : List Nat) (h : found.Nodup) : (frontier.foldl
      (fun found id => joinNodes found ((graph[id]?.map (·.targets link)).getD [])) found).Nodup := by
    induction frontier generalizing found with
    | nil => exact h
    | cons id frontier ih => exact ih _ (nodup_joinNodes h _)
  exact step [] List.nodup_nil

/-! ## Adding one link -/

/-- The graph with the link at every node of the frontier. -/
def addLink (graph : Graph Group ν) (frontier : List Nat) (link : Link) (fresh : Nat) :
    Graph Group ν :=
  graph.mapIdx fun id node => if id ∈ frontier then node.addLink fresh link else node

theorem addLink_getElem? (frontier : List Nat) (link : Link) (fresh id : Nat) :
    (graph.addLink frontier link fresh)[id]? =
      graph[id]?.map fun node => if id ∈ frontier then node.addLink fresh link else node :=
  Array.getElem?_mapIdx

theorem size_addLink (frontier : List Nat) (link : Link) (fresh : Nat) :
    (graph.addLink frontier link fresh).size = graph.size :=
  Array.size_mapIdx

theorem addLink_eq_self (frontier : List Nat) (link : Link) (fresh : Nat)
    (has : ∀ id ∈ frontier, ∀ node, graph[id]? = some node → node.Has link) :
    graph.addLink frontier link fresh = graph := by
  refine Array.ext_getElem? fun id => ?_
  rw [addLink_getElem?]
  cases present : graph[id]? with
  | none => rfl
  | some node =>
    rw [Option.map_some]
    split
    · rename_i mem
      rw [Node.addLink_of_has fresh link (has id mem node present)]
    · rfl

theorem addLink_addLink (frontier more all : List Nat) (link : Link) (fresh : Nat)
    (both : ∀ id, id ∈ all ↔ id ∈ frontier ∨ id ∈ more) :
    (graph.addLink frontier link fresh).addLink more link fresh = graph.addLink all link fresh := by
  refine Array.ext_getElem? fun id => ?_
  simp only [addLink_getElem?, both]
  cases graph[id]? with
  | none => rfl
  | some node =>
    by_cases mem : id ∈ frontier
    · simp [mem, Node.addLink_of_has fresh link (Node.has_addLink fresh link)]
    · simp [mem]

theorem addLink_addLink_getElem? (frontier more : List Nat) (link : Link) (fresh id : Nat)
    (mem : id ∈ frontier) : ((graph.addLink frontier link fresh).addLink more link fresh)[id]? =
      (graph.addLink frontier link fresh)[id]? := by
  simp only [addLink_getElem?, mem, if_true]
  cases graph[id]? with
  | none => rfl
  | some node => simp [Node.addLink_of_has fresh link (Node.has_addLink fresh link)]

theorem extends_addLink (frontier : List Nat) (link : Link) (fresh : Nat) :
    graph.Extends (graph.addLink frontier link fresh) := by
  intro id node present
  refine ⟨if id ∈ frontier then node.addLink fresh link else node, ?_, ?_⟩
  · rw [addLink_getElem?, present]
    rfl
  · split
    · exact Node.extends_addLink fresh link
    · exact .refl node

theorem addLink_edge (frontier : List Nat) (link : Link) (fresh id : Nat) (node' : Node Group ν)
    (c : Char) (next : Nat) (present : (graph.addLink frontier link fresh)[id]? = some node')
    (leads : node'.edge? c = some next) :
    (∃ node, graph[id]? = some node ∧ node.edge? c = some next) ∨
      id ∈ frontier ∧ next = fresh ∧ ∃ items, link = .chars items ∧
        ∃ item ∈ items, item.contains c := by
  rw [addLink_getElem?] at present
  obtain ⟨node, before, rfl⟩ := Option.map_eq_some_iff.1 present
  by_cases mem : id ∈ frontier
  · rw [if_pos mem] at leads
    rcases link with items | ⟨group, label⟩
    · rw [Node.edge?_addLink_chars, Option.or_eq_some_iff] at leads
      rcases leads with old | ⟨-, new⟩
      · exact Or.inl ⟨node, before, old⟩
      · split at new
        · rename_i reads
          exact Or.inr ⟨mem, (Option.some.inj new).symm, items, rfl, reads⟩
        · cases new
    · unfold Node.edge? at leads
      rw [Node.edges_addLink_group] at leads
      exact Or.inl ⟨node, before, leads⟩
  · rw [if_neg mem] at leads
    exact Or.inl ⟨node, before, leads⟩

theorem addLink_hop (frontier : List Nat) (link : Link) (fresh id : Nat) (node' : Node Group ν)
    (hop : Hop Group) (present : (graph.addLink frontier link fresh)[id]? = some node')
    (mem : hop ∈ node'.hops) :
    (∃ node, graph[id]? = some node ∧ hop ∈ node.hops) ∨
      id ∈ frontier ∧ hop.next = fresh ∧ link = .group hop.group hop.label ∧
        ∀ node, graph[id]? = some node → node.hop? hop.group hop.label = none := by
  rw [addLink_getElem?] at present
  obtain ⟨node, before, rfl⟩ := Option.map_eq_some_iff.1 present
  by_cases among : id ∈ frontier
  · rw [if_pos among] at mem
    rcases link with items | ⟨group, label⟩
    · exact Or.inl ⟨node, before, mem⟩
    · rw [Node.hops_addLink_group, List.mem_append] at mem
      rcases mem with old | new
      · exact Or.inl ⟨node, before, old⟩
      · split at new
        · cases new
        · rename_i lacks
          obtain rfl := List.mem_singleton.1 new
          refine Or.inr ⟨among, rfl, rfl, fun node' before' => ?_⟩
          obtain rfl := Option.some.inj (before.symm.trans before')
          simpa using lacks
  · rw [if_neg among] at mem
    exact Or.inl ⟨node, before, mem⟩

theorem addLink_value (frontier : List Nat) (link : Link) (fresh id : Nat) (node' : Node Group ν)
    (present : (graph.addLink frontier link fresh)[id]? = some node') :
    ∃ node, graph[id]? = some node ∧ node.value = node'.value := by
  rw [addLink_getElem?] at present
  obtain ⟨node, before, rfl⟩ := Option.map_eq_some_iff.1 present
  refine ⟨node, before, ?_⟩
  split <;> simp

theorem proper_addLink (proper : graph.Proper) (frontier : List Nat) (link : Link) (fresh : Nat)
    (pos : 0 < fresh) (inside : fresh < graph.size) :
    (graph.addLink frontier link fresh).Proper := by
  refine ⟨?_, ?_, ?_⟩
  · rw [size_addLink]
    exact proper.nonempty
  · intro id node' c next present leads
    rw [size_addLink]
    rcases addLink_edge frontier link fresh id node' c next present leads with
      ⟨node, before, old⟩ | ⟨-, rfl, -⟩
    · exact proper.edge id node c next before old
    · exact ⟨pos, inside⟩
  · intro id node' hop present mem
    rw [size_addLink]
    rcases addLink_hop frontier link fresh id node' hop present mem with
      ⟨node, before, old⟩ | ⟨-, eq, -⟩
    · exact proper.hop id node hop before old
    · exact eq ▸ ⟨pos, inside⟩

theorem Proper.goes (proper : graph.Proper) (link : Link) (id next : Nat)
    (goes : graph.Goes link id next) : 0 < next ∧ next < graph.size := by
  obtain ⟨node, present, target⟩ := goes
  rcases link with items | ⟨group, label⟩
  · obtain ⟨c, -, leads⟩ := (Node.mem_targets_chars items next).1 target
    exact proper.edge id node c next present leads
  · have leads := (Node.mem_targets_group group label next).1 target
    obtain ⟨hop, found, rfl⟩ := Option.map_eq_some_iff.1 leads
    exact proper.hop id node hop present (List.mem_of_find?_eq_some found)

theorem goes_of_mem (frontier : List Nat) (link : Link) (fresh id : Nat) (mem : id ∈ frontier)
    (node : Node Group ν) (present : (graph.addLink frontier link fresh)[id]? = some node) :
    node.Has link := by
  rw [addLink_getElem?] at present
  obtain ⟨before, -, rfl⟩ := Option.map_eq_some_iff.1 present
  rw [if_pos mem]
  exact Node.has_addLink fresh link

theorem push_getElem? (id : Nat) (node : Node Group ν)
    (present : (graph.push Node.blank)[id]? = some node) :
    graph[id]? = some node ∨ node = Node.blank := by
  rw [Array.getElem?_push] at present
  split at present
  · exact Or.inr (Option.some.inj present).symm
  · exact Or.inl present

theorem getElem?_push_of_some {id : Nat} {node : Node Group ν} (present : graph[id]? = some node) :
    (graph.push Node.blank)[id]? = some node := by
  have inside : id < graph.size := (Array.getElem?_eq_some_iff.1 present).1
  rw [Array.getElem?_push, if_neg (Nat.ne_of_lt inside)]
  exact present

theorem proper_push (proper : graph.Proper) : Proper (graph.push Node.blank) := by
  refine ⟨by simp, fun id node c next present leads => ?_, fun id node hop present mem => ?_⟩
  · rcases push_getElem? id node present with old | rfl
    · have := proper.edge id node c next old leads
      rw [Array.size_push]
      omega
    · cases leads
  · rcases push_getElem? id node present with old | rfl
    · have := proper.hop id node hop old mem
      rw [Array.size_push]
      omega
    · cases mem

end Graph

end OpGrammar
