import Mathlib.Data.List.Forall2
import OpGrammar.Proofs.Growth
import OpGrammar.Lexicon.Group

/-!
# Twins

Two graphs may have the same nodes with groups on their hops that are not the same but read the same.
They find the same in every text. They also grow alike, if on both sides the same hops go through one
and the same group: which group it is only matters for this.
-/

namespace OpGrammar

variable {ν : Type}

/-- The two groups cannot be told apart by what they read. -/
structure Group.ReadsAs (group group' : Group) : Prop where
  run : group.run = group'.run
  nullable : group.nullable = group'.nullable

theorem Group.ReadsAs.refl (group : Group) : group.ReadsAs group := ⟨rfl, rfl⟩

/-- Related groups read the same, and what is one group on one side is one group on the other. -/
structure Pairs (R : Group → Group → Prop) : Prop where
  reads : ∀ group group', R group group' → group.ReadsAs group'
  ids : ∀ group group' other other', R group group' → R other other' →
    (group.id = other.id ↔ group'.id = other'.id)

/-! ## The same, but for related groups -/

structure Hop.Twin (R : Group → Group → Prop) (hop hop' : Hop Group) : Prop where
  group : R hop.group hop'.group
  label : hop.label = hop'.label
  next : hop.next = hop'.next

structure Node.Twin (R : Group → Group → Prop) (node node' : Node Group ν) : Prop where
  edges : node.edges = node'.edges
  hops : List.Forall₂ (Hop.Twin R) node.hops node'.hops
  value : node.value = node'.value

def Graph.Twin (R : Group → Group → Prop) (graph graph' : Graph Group ν) : Prop :=
  ∀ id : Nat, Option.Rel (Node.Twin R) graph[id]? graph'[id]?

inductive Link.Twin (R : Group → Group → Prop) : Link → Link → Prop
  | chars (items : List ClassItem) : Twin R (.chars items) (.chars items)
  | group (group group' : Group) (label : Option Text) (related : R group group') :
    Twin R (.group group label) (.group group' label)

structure Piece.Twin (R : Group → Group → Prop) (piece piece' : Piece Link) : Prop where
  atom : piece.atom.Twin R piece'.atom
  quantifier : piece.quantifier = piece'.quantifier

abbrev Branches.Twin (R : Group → Group → Prop) : Branches Link → Branches Link → Prop :=
  List.Forall₂ (List.Forall₂ (Piece.Twin R))

/-! ## Related options -/

theorem rel_mono {α β : Type} {P Q : α → β → Prop} {a : Option α} {b : Option β}
    (related : Option.Rel P a b) (more : ∀ a' ∈ a, ∀ b', P a' b' → Q a' b') : Option.Rel Q a b := by
  cases related with
  | none => exact .none
  | some related => exact .some (more _ rfl _ related)

theorem rel_refl {α : Type} {P : α → α → Prop} (same : ∀ a, P a a) (a : Option α) :
    Option.Rel P a a := by
  cases a with
  | none => exact .none
  | some a => exact .some (same a)

theorem rel_map {α β γ δ : Type} {P : α → β → Prop} {Q : γ → δ → Prop} {f : α → γ} {g : β → δ}
    {a : Option α} {b : Option β} (related : Option.Rel P a b)
    (keeps : ∀ a b, P a b → Q (f a) (g b)) : Option.Rel Q (a.map f) (b.map g) := by
  cases related with
  | none => exact .none
  | some related => exact .some (keeps _ _ related)

theorem rel_bind {α β γ δ : Type} {P : α → β → Prop} {Q : γ → δ → Prop} {f : α → Option γ}
    {g : β → Option δ} {a : Option α} {b : Option β} (related : Option.Rel P a b)
    (keeps : ∀ a b, P a b → Option.Rel Q (f a) (g b)) : Option.Rel Q (a.bind f) (b.bind g) := by
  cases related with
  | none => exact .none
  | some related => exact keeps _ _ related

theorem map_eq_of_rel {α β γ : Type} {P : α → β → Prop} {f : α → γ} {g : β → γ} {a : Option α}
    {b : Option β} (related : Option.Rel P a b) (same : ∀ a b, P a b → f a = g b) :
    a.map f = b.map g := by
  cases related with
  | none => rfl
  | some related => exact congrArg some (same _ _ related)

/-! ## Twin nodes -/

section Hops

variable {R : Group → Group → Prop} {hops hops' : List (Hop Group)}

theorem find?_goesThrough (pairs : Pairs R) (twins : List.Forall₂ (Hop.Twin R) hops hops')
    {group group' : Group} (related : R group group') (label : Option Text) :
    (hops.find? (·.goesThrough group label)).map (·.next) =
      (hops'.find? (·.goesThrough group' label)).map (·.next) := by
  induction twins with
  | nil => rfl
  | @cons hop hop' _ _ first _ ih =>
    have through : hop.goesThrough group label = hop'.goesThrough group' label := by
      rw [Bool.eq_iff_iff]
      simp only [Hop.goesThrough, Bool.and_eq_true, beq_iff_eq, first.label,
        pairs.ids _ _ _ _ first.group related]
    rw [List.find?_cons, List.find?_cons, through]
    cases hop'.goesThrough group' label with
    | true => exact congrArg some first.next
    | false => exact ih

theorem map_mapGroup_run (pairs : Pairs R) (twins : List.Forall₂ (Hop.Twin R) hops hops') :
    hops.map (Hop.mapGroup Group.run) = hops'.map (Hop.mapGroup Group.run) := by
  induction twins with
  | nil => rfl
  | cons first _ ih =>
    rw [List.map_cons, List.map_cons, ih]
    simp only [Hop.mapGroup, (pairs.reads _ _ first.group).run, first.label, first.next]

end Hops

namespace Node

variable {R S : Group → Group → Prop} {node node' : Node Group ν} {link link' : Link}

theorem twin_blank (R : Group → Group → Prop) : (blank : Node Group ν).Twin R blank :=
  ⟨rfl, .nil, rfl⟩

theorem twin_refl (same : ∀ group, R group group) (node : Node Group ν) : node.Twin R node :=
  ⟨rfl, List.forall₂_same.2 fun hop _ => ⟨same hop.group, rfl, rfl⟩, rfl⟩

theorem Twin.mono (twin : node.Twin R node')
    (more : ∀ hop ∈ node.hops, ∀ group', R hop.group group' → S hop.group group') :
    node.Twin S node' := by
  refine ⟨twin.edges, ?_, twin.value⟩
  exact ((List.forall₂_and_left _ _).2 ⟨more, twin.hops⟩).imp
    fun hop hop' ⟨more, same⟩ => ⟨more _ same.group, same.label, same.next⟩

theorem Twin.edge? (twin : node.Twin R node') (c : Char) : node.edge? c = node'.edge? c := by
  rw [Node.edge?, Node.edge?, twin.edges]

theorem Twin.hop? (twin : node.Twin R node') (pairs : Pairs R) {group group' : Group}
    (related : R group group') (label : Option Text) :
    node.hop? group label = node'.hop? group' label :=
  find?_goesThrough pairs twin.hops related label

theorem Twin.addLink (twin : node.Twin R node') (pairs : Pairs R) (links : link.Twin R link')
    (fresh : Nat) : (node.addLink fresh link).Twin R (node'.addLink fresh link') := by
  cases links with
  | chars items =>
    refine ⟨?_, twin.hops, twin.value⟩
    simp only [Node.addLink, twin.edges, twin.edge?]
  | group group group' label related =>
    simp only [Node.addLink, twin.hop? pairs related label]
    split
    · exact twin
    · exact ⟨twin.edges, List.rel_append twin.hops (.cons ⟨related, rfl, rfl⟩ .nil), twin.value⟩

theorem Twin.hasLink (twin : node.Twin R node') (pairs : Pairs R) (links : link.Twin R link') :
    node.hasLink link = node'.hasLink link' := by
  cases links with
  | chars items => simp only [Node.hasLink, twin.edge?]
  | group group group' label related => simp only [Node.hasLink, twin.hop? pairs related label]

theorem Twin.targets (twin : node.Twin R node') (pairs : Pairs R) (links : link.Twin R link') :
    node.targets link = node'.targets link' := by
  cases links with
  | chars items => simp only [Node.targets, funext twin.edge?]
  | group group group' label related => simp only [Node.targets, twin.hop? pairs related label]

theorem Twin.addValue (twin : node.Twin R node') (v : ν) :
    (node.addValue v).Twin R (node'.addValue v) :=
  ⟨twin.edges, twin.hops, congrArg (·.or (some v)) twin.value⟩

end Node

/-! ## Twin graphs -/

namespace Graph

variable {R : Group → Group → Prop} {graph graph' : Graph Group ν} {link link' : Link}

theorem twin_empty (R : Group → Group → Prop) : (empty : Graph Group ν).Twin R empty
  | 0 => .some (Node.twin_blank R)
  | _ + 1 => .none

theorem twin_refl (same : ∀ group, R group group) (graph : Graph Group ν) : graph.Twin R graph :=
  fun id => rel_refl (Node.twin_refl same) graph[id]?

theorem Twin.size (twin : graph.Twin R graph') : graph.size = graph'.size := by
  have ends (id : Nat) : graph.size ≤ id ↔ graph'.size ≤ id := by
    have same := map_eq_of_rel (twin id) fun _ _ _ => (rfl : () = ())
    rw [← Array.getElem?_eq_none_iff, ← Array.getElem?_eq_none_iff, ← Option.map_eq_none_iff, same,
      Option.map_eq_none_iff]
  exact Nat.le_antisymm ((ends _).2 le_rfl) ((ends _).1 le_rfl)

theorem Twin.push (twin : graph.Twin R graph') :
    Twin R (graph.push Node.blank) (graph'.push Node.blank) := by
  intro id
  rw [Array.getElem?_push, Array.getElem?_push, twin.size]
  split
  · exact .some (Node.twin_blank R)
  · exact twin id

theorem Twin.addLink (twin : graph.Twin R graph') (pairs : Pairs R) (links : link.Twin R link')
    (frontier : List Nat) (fresh : Nat) :
    (graph.addLink frontier link fresh).Twin R (graph'.addLink frontier link' fresh) := by
  intro id
  rw [addLink_getElem?, addLink_getElem?]
  refine rel_map (twin id) fun node node' twin => ?_
  split
  · exact twin.addLink pairs links fresh
  · exact twin

theorem Twin.targets (twin : graph.Twin R graph') (pairs : Pairs R) (links : link.Twin R link')
    (frontier : List Nat) : graph.targets frontier link = graph'.targets frontier link' := by
  have same (id : Nat) : graph[id]?.map (·.targets link) = graph'[id]?.map (·.targets link') :=
    map_eq_of_rel (twin id) fun node node' twin => twin.targets pairs links
  simp only [Graph.targets, same]

end Graph

namespace Draft

variable {R : Group → Group → Prop} {draft draft' : Draft ν} {link link' : Link}

/-- The graphs are twins, and the new node is the same. -/
structure Twin (R : Group → Group → Prop) (draft draft' : Draft ν) : Prop where
  graph : draft.graph.Twin R draft'.graph
  fresh : draft.fresh = draft'.fresh

theorem Twin.has (twin : draft.Twin R draft') (pairs : Pairs R) (links : link.Twin R link')
    (id : Nat) : draft.Has link id ↔ draft'.Has link' id := by
  have same := map_eq_of_rel (twin.graph id) fun _ _ twin => twin.hasLink pairs links
  rw [← any_hasLink, ← any_hasLink]
  cases before : draft.graph[id]? <;> cases after : draft'.graph[id]? <;> simp_all

theorem Twin.base (twin : draft.Twin R draft') : draft.base.Twin R draft'.base := by
  unfold Draft.base
  rw [twin.fresh]
  split
  · exact twin.graph
  · exact twin.graph.push

theorem Twin.place (twin : draft.Twin R draft') : draft.place = draft'.place := by
  rw [Draft.place, Draft.place, twin.fresh, twin.graph.size]

theorem Twin.addLink (twin : draft.Twin R draft') (pairs : Pairs R) (links : link.Twin R link')
    (frontier : List Nat) : (draft.addLink frontier link).Twin R (draft'.addLink frontier link') := by
  rcases draft.addLink_cases frontier link with ⟨has, eq⟩ | ⟨⟨id, mem, lacks⟩, eq⟩
  · rw [eq, addLink_of_has fun id mem => (twin.has pairs links id).1 (has id mem)]
    exact twin
  · rw [eq, addLink_of_lacks ⟨id, mem, mt (twin.has pairs links id).2 lacks⟩, twin.place]
    exact ⟨twin.base.addLink pairs links frontier _, rfl⟩

theorem Twin.closeLink (twin : draft.Twin R draft') (pairs : Pairs R) (links : link.Twin R link')
    (reached : List Nat) (rounds : Nat) :
    (draft.closeLink reached link rounds).1.Twin R (draft'.closeLink reached link' rounds).1 ∧
      (draft.closeLink reached link rounds).2 = (draft'.closeLink reached link' rounds).2 := by
  induction rounds generalizing draft draft' reached with
  | zero => exact ⟨twin, rfl⟩
  | succ rounds ih =>
    have next := twin.addLink pairs links reached
    simp only [Draft.closeLink, next.graph.targets pairs links reached]
    split
    · exact ⟨next, rfl⟩
    · exact ih next _

end Draft

namespace Graph

variable {R : Group → Group → Prop} {graph graph' : Graph Group ν}

theorem Twin.addPiece (twin : graph.Twin R graph') (pairs : Pairs R) {piece piece' : Piece Link}
    (pieces : piece.Twin R piece') (frontier : List Nat) :
    (graph.addPiece frontier piece).1.Twin R (graph'.addPiece frontier piece').1 ∧
      (graph.addPiece frontier piece).2 = (graph'.addPiece frontier piece').2 := by
  obtain ⟨links, quantifier⟩ := pieces
  have start : Draft.Twin R ⟨graph, none⟩ ⟨graph', none⟩ := ⟨twin, rfl⟩
  have next := start.addLink pairs links frontier
  simp only [Graph.addPiece, quantifier, twin.size, next.graph.targets pairs links frontier]
  cases piece'.quantifier.allowsMore with
  | false => exact ⟨next.graph, rfl⟩
  | true =>
    obtain ⟨closed, same⟩ := next.closeLink pairs links _ (graph'.size + 1)
    exact ⟨closed.graph, by simp only [if_true, same]⟩

theorem Twin.addBranch (twin : graph.Twin R graph') (pairs : Pairs R)
    {pieces pieces' : List (Piece Link)} (row : List.Forall₂ (Piece.Twin R) pieces pieces')
    (frontier : List Nat) :
    (graph.addBranch frontier pieces).1.Twin R (graph'.addBranch frontier pieces').1 ∧
      (graph.addBranch frontier pieces).2 = (graph'.addBranch frontier pieces').2 := by
  induction row generalizing graph graph' frontier with
  | nil => exact ⟨twin, rfl⟩
  | cons first _ ih =>
    obtain ⟨next, same⟩ := twin.addPiece pairs first frontier
    simp only [Graph.addBranch, same]
    exact ih next _

theorem Twin.addBranches (twin : graph.Twin R graph') (pairs : Pairs R)
    {branches branches' : Branches Link} (rows : branches.Twin R branches')
    (frontier : List Nat) :
    (graph.addBranches frontier branches).1.Twin R (graph'.addBranches frontier branches').1 ∧
      (graph.addBranches frontier branches).2 = (graph'.addBranches frontier branches').2 := by
  induction rows generalizing graph graph' with
  | nil => exact ⟨twin, rfl⟩
  | cons first _ ih =>
    obtain ⟨next, same⟩ := twin.addBranch pairs first frontier
    obtain ⟨last, same'⟩ := ih next
    simp only [Graph.addBranches, same, same']
    exact ⟨last, trivial⟩

theorem Twin.addValue (twin : graph.Twin R graph') (ends : List Nat) (v : ν) :
    (graph.addValue ends v).Twin R (graph'.addValue ends v) := by
  intro id
  rw [addValue_getElem?, addValue_getElem?]
  refine rel_map (twin id) fun node node' twin => ?_
  split
  · exact twin.addValue v
  · exact twin

theorem Twin.addPattern (twin : graph.Twin R graph') (pairs : Pairs R)
    {branches branches' : Branches Link} (rows : branches.Twin R branches') (v : ν) :
    (graph.addPattern branches v).Twin R (graph'.addPattern branches' v) := by
  obtain ⟨next, same⟩ := twin.addBranches pairs rows [0]
  simp only [Graph.addPattern, same]
  exact next.addValue _ v

/-- Twins find the same in every text. -/
theorem Twin.walk (twin : graph.Twin R graph') (pairs : Pairs R) (entered : List Nat) (id : Nat)
    (text : Text) : graph.walk Group.run entered id text = graph'.walk Group.run entered id text := by
  -- A walk sees nothing of a group but what it reads, and this is the same on both sides.
  have same : graph.map (Node.mapGroup Group.run) = graph'.map (Node.mapGroup Group.run) := by
    refine Array.ext_getElem? fun id => ?_
    rw [Array.getElem?_map, Array.getElem?_map]
    refine map_eq_of_rel (twin id) fun node node' twin => ?_
    rw [Node.mapGroup, Node.mapGroup, twin.edges, map_mapGroup_run pairs twin.hops, twin.value]
  rw [← walk_mapGroup Group.run fun reading => reading, same, walk_mapGroup]

end Graph

theorem Group.readsAs_ofBranches {R : Group → Group → Prop} (pairs : Pairs R)
    {branches branches' : Branches Link} (rows : branches.Twin R branches') (id id' : GroupId) :
    (ofBranches id branches).ReadsAs (ofBranches id' branches') := by
  have twin := (Graph.twin_empty R).addPattern pairs rows ()
  refine ⟨funext fun text => ?_, ?_⟩
  · rw [run_eq, run_eq]
    exact twin.walk pairs [0] 0 text
  · have same := congrArg Option.join (map_eq_of_rel (twin 0) fun _ _ twin => twin.value)
    rw [← Option.bind_id_eq_join, ← Option.bind_id_eq_join, Option.bind_map, Option.bind_map] at same
    exact congrArg Option.isSome same

end OpGrammar
