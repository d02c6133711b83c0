import OpGrammar.Proofs.Growth
import OpGrammar.Proofs.History
import OpGrammar.Proofs.Reading

/-!
# What one piece adds

A piece that may come again follows its link along whatever earlier patterns left in the graph,
cycles included, and adds the link to every node it comes to. It stops all the same, after no more
rounds than there are nodes, and the nodes after it are those that its link leads to.
-/

namespace OpGrammar

variable {ν : Type}

/-- From the node the whole link leads into the list: with every character that it reads, or through
its group. -/
def Node.Enters (node : Node Group ν) (nodes : List Nat) : Link → Prop
  | .chars items => ∀ item ∈ items, ∀ c, item.contains c → ∃ next ∈ nodes, node.edge? c = some next
  | .group group label => ∃ next ∈ nodes, node.hop? group label = some next

theorem Node.enters_of_has {node : Node Group ν} {link : Link} {nodes : List Nat}
    (has : node.Has link) (into : ∀ next ∈ node.targets link, next ∈ nodes) :
    node.Enters nodes link := by
  cases link with
  | chars items =>
    intro item mem c reads
    obtain ⟨next, leads⟩ := Option.isSome_iff_exists.1 (has item mem c reads)
    have target := (mem_targets_chars items next).2 ⟨c, ⟨item, mem, reads⟩, leads⟩
    exact ⟨next, into next target, leads⟩
  | group group label =>
    obtain ⟨next, leads⟩ := Option.isSome_iff_exists.1 has
    exact ⟨next, into next ((mem_targets_group group label next).2 leads), leads⟩

theorem Node.mem_targets_addLink {node : Node Group ν} {link : Link} (fresh : Nat)
    (lacks : ¬node.Has link) : fresh ∈ (node.addLink fresh link).targets link := by
  cases link with
  | chars items =>
    obtain ⟨item, mem, c, reads, leads⟩ : ∃ item ∈ items, ∃ c, item.contains c ∧
        node.edge? c = none := by
      simpa [Has] using lacks
    have read : ∃ item ∈ items, item.contains c := ⟨item, mem, reads⟩
    refine (mem_targets_chars items fresh).2 ⟨c, read, ?_⟩
    rw [edge?_addLink_chars, leads, if_pos read]
    rfl
  | group group label =>
    refine (mem_targets_group group label fresh).2 ?_
    have missing : node.hops.find? (·.goesThrough group label) = none := by
      simpa [Has, hop?] using lacks
    unfold hop?
    rw [hops_addLink_group, if_neg (show ¬(node.hop? group label).isSome from lacks),
      List.find?_append, missing]
    simp [Hop.goesThrough]

/-- There is a character for the link, or it goes through a group. -/
def Link.ReadsSome : Link → Prop
  | .chars items => ∃ item ∈ items, ∃ c, item.contains c
  | .group _ _ => True

theorem Node.Enters.ne_nil {node : Node Group ν} {link : Link} {nodes : List Nat}
    (enters : node.Enters nodes link) (reads : link.ReadsSome) : nodes ≠ [] := by
  cases link with
  | chars items =>
    obtain ⟨item, mem, c, has⟩ := reads
    obtain ⟨next, mem, -⟩ := enters item mem c has
    exact List.ne_nil_of_mem mem
  | group group label =>
    obtain ⟨next, mem, -⟩ := enters
    exact List.ne_nil_of_mem mem

theorem Atom.link_readsSome {atom : Atom} (well : atom.WellRead) {meanings : Meanings}
    {groups groups' : InlineGroups} {link : Link}
    (resolved : atom.link meanings groups = .ok link groups') : link.ReadsSome := by
  cases well with
  | char c =>
    rw [Atom.link] at resolved
    cases resolved
    exact ⟨.single c, List.mem_cons_self, c, beq_self_eq_true c⟩
  | oneOf items some =>
    rw [Atom.link] at resolved
    cases resolved
    exact some
  | reference label name =>
    rw [Atom.link] at resolved
    cases known : meanings.group? name <;> rw [known] at resolved <;> cases resolved
    trivial
  | group source inner =>
    rw [Atom.link, bind_apply, get_apply] at resolved
    dsimp only at resolved
    cases kept : groups.lookup source <;> rw [kept] at resolved
    · dsimp only at resolved
      rw [bind_apply] at resolved
      cases inside : linksOfBranches meanings inner groups <;> rw [inside] at resolved <;>
        cases resolved
      trivial
    · cases resolved
      trivial

namespace Graph

variable {graph graph' : Graph Group ν} {frontier after : List Nat}

/-- From the node with this number the whole link leads into the list. -/
def Enters (graph : Graph Group ν) (id : Nat) (nodes : List Nat) (link : Link) : Prop :=
  ∃ node, graph[id]? = some node ∧ node.Enters nodes link

/-- What a piece makes of a graph and a frontier. -/
structure Moves (graph : Graph Group ν) (frontier : List Nat) (piece : Piece Link)
    (graph' : Graph Group ν) (after : List Nat) : Prop where
  /-- A piece that may come again goes round until its link leads nowhere else. -/
  stops : piece.quantifier.allowsMore → ∃ rounds ≤ graph.size + 1, ∃ draft reached,
    Closes piece.atom (graph.linked frontier piece.atom)
      ((graph.linked frontier piece.atom).graph.targets frontier piece.atom) rounds draft reached ∧
    draft.graph = graph' ∧
    ∀ id, id ∈ after ↔ id ∈ reached ∨ piece.quantifier.allowsNone ∧ id ∈ frontier
  proper : graph'.Proper
  inside : ∀ id ∈ after, id < graph'.size
  size : graph'.size ≤ graph.size + 1
  /-- A node is only added to go on from it. -/
  added : graph.size < graph'.size → graph.size ∈ after
  keeps : ∀ (id : Nat) (node : Node Group ν), graph[id]? = some node →
    ∃ node', graph'[id]? = some node' ∧ node.Extends node' ∧ node'.value = node.value
  nonempty : after ≠ []
  once : ∀ id ∈ frontier, graph'.Enters id after piece.atom
  again : piece.quantifier.allowsMore → ∀ first ∈ frontier, ∀ id,
    Relation.TransGen (graph'.Goes piece.atom) first id →
      id ∈ after ∧ graph'.Enters id after piece.atom
  without : piece.quantifier.allowsNone → ∀ id ∈ frontier, id ∈ after
  only : ∀ id ∈ after, (∃ first ∈ frontier, graph'.Goes piece.atom first id ∨
    piece.quantifier.allowsMore ∧ Relation.TransGen (graph'.Goes piece.atom) first id) ∨
      piece.quantifier.allowsNone ∧ id ∈ frontier
  root : 0 ∈ after → piece.quantifier.allowsNone ∧ 0 ∈ frontier

/-! ## What is swept -/

section Swept

variable {reached : List Nat} {link : Link} {more : Bool}

theorem Swept.keeps_value (swept : graph.Swept frontier link more graph' reached) {id : Nat}
    {node : Node Group ν} (present : graph[id]? = some node) :
    ∃ node', graph'[id]? = some node' ∧ node.Extends node' ∧ node'.value = node.value := by
  obtain ⟨node', present', extends_⟩ := swept.keeps id node present
  refine ⟨node', present', extends_, ?_⟩
  cases known : node'.value with
  | some v =>
    obtain ⟨before, old, same⟩ := swept.value id node' v present' known
    rw [present] at old
    cases old
    exact same.symm
  | none =>
    cases old : node.value with
    | none => rfl
    | some v =>
      rw [extends_.value v old] at known
      cases known

theorem Swept.enters (swept : graph.Swept frontier link more graph' reached)
    (into : ∀ id ∈ reached, id ∈ after) {id : Nat} (source : id ∈ sources frontier reached more)
    (inside : id < graph'.size) : graph'.Enters id after link := by
  have present : graph'[id]? = some graph'[id] := Array.getElem?_eq_getElem inside
  refine ⟨_, present, Node.enters_of_has (swept.has id source _ present) fun next target => ?_⟩
  exact into next (swept.goes id source next ⟨_, present, target⟩)

theorem Swept.inside (swept : graph.Swept frontier link more graph' reached) {id : Nat}
    (mem : id ∈ reached) : 0 < id ∧ id < graph'.size := by
  obtain ⟨before, goes⟩ := swept.goes_to id mem
  exact swept.proper.goes link before id goes

theorem Swept.closed (swept : graph.Swept frontier link true graph' reached) {first id : Nat}
    (start : first ∈ frontier) (steps : Relation.TransGen (graph'.Goes link) first id) :
    id ∈ reached := by
  induction steps with
  | single goes => exact swept.goes first (start_mem_sources reached true start) _ goes
  | tail _ goes ih => exact swept.goes _ (reached_mem_sources frontier rfl ih) _ goes

theorem Swept.comes_along (swept : graph.Swept frontier link more graph' reached) {id : Nat}
    (mem : id ∈ reached) : ∃ first ∈ frontier, graph'.Goes link first id ∨
      more ∧ Relation.TransGen (graph'.Goes link) first id := by
  obtain ⟨first, start, second, goes, steps⟩ := swept.comes id mem
  refine ⟨first, start, ?_⟩
  cases more with
  | false =>
    obtain rfl : id = second := by simpa using steps
    exact .inl goes
  | true => exact .inr ⟨rfl, .head' goes (by simpa using steps)⟩

theorem Swept.added (swept : graph.Swept frontier link more graph' reached)
    (inside : ∀ id ∈ frontier, id < graph.size)
    (made : graph' = (graph.linked (sources frontier reached more) link).graph)
    (larger : graph.size < graph'.size) : graph.size ∈ reached := by
  rcases graph.linked_cases (sources frontier reached more) link with
    ⟨-, same⟩ | ⟨⟨id, source, lacks⟩, linked⟩
  · rw [made, same] at larger
    exact absurd larger (Nat.lt_irrefl _)
  · rw [linked] at made
    cases before : graph[id]? with
    | none =>
      -- Only the fresh node was not there before, and the frontier was.
      have above := Array.getElem?_eq_none_iff.1 before
      have among : id ∈ reached := by
        refine ((mem_sources.1 source).resolve_left fun start => ?_).2
        have := inside id start
        omega
      have below := (swept.inside among).2
      rw [made, size_addLink, Array.size_push] at below
      obtain rfl : id = graph.size := by omega
      exact among
    | some node =>
      have leads : graph'[id]? = some (node.addLink graph.size link) := by
        rw [made, addLink_getElem?, getElem?_push_of_some before, Option.map_some, if_pos source]
      have fresh := Node.mem_targets_addLink graph.size fun has => lacks ⟨node, before, has⟩
      exact swept.goes id source graph.size ⟨_, leads, fresh⟩

end Swept

/-! ## Adding a piece -/

/-- Whatever a graph has, a piece moves every frontier on: nothing that was there changes, the loop
comes to an end, and the nodes after the piece are those that its link leads to. -/
theorem addPiece_moves (proper : graph.Proper) (start : frontier ≠ [])
    (inside : ∀ id ∈ frontier, id < graph.size) {piece : Piece Atom} (well : piece.atom.WellRead)
    {meanings : Meanings} {groups groups' : InlineGroups} {link : Link}
    (resolved : piece.atom.link meanings groups = .ok link groups') :
    graph.Moves frontier ⟨link, piece.quantifier⟩
      (graph.addPiece frontier ⟨link, piece.quantifier⟩).1
      (graph.addPiece frontier ⟨link, piece.quantifier⟩).2 := by
  obtain ⟨draft, reached, eq, made, stops, swept⟩ :=
    addPiece_runs proper frontier ⟨link, piece.quantifier⟩
  rw [eq]
  dsimp only at made stops swept ⊢
  have size : draft.graph.size ≤ graph.size + 1 := by
    rw [← size_base_linked (sources frontier reached piece.quantifier.allowsMore) link, made]
    exact Draft.size_le_base _
  have larger : graph.size ≤ draft.graph.size := swept.keeps.size_le
  generalize set : (if piece.quantifier.allowsNone then joinNodes reached frontier else reached) =
    after
  have mem_after (id : Nat) :
      id ∈ after ↔ id ∈ reached ∨ piece.quantifier.allowsNone ∧ id ∈ frontier :=
    set ▸ Graph.mem_after _ _ _ _
  have into : ∀ id ∈ reached, id ∈ after := fun id mem => (mem_after id).2 (.inl mem)
  have once : ∀ id ∈ frontier, draft.graph.Enters id after link := fun id mem =>
    swept.enters into (start_mem_sources _ _ mem) (Nat.lt_of_lt_of_le (inside id mem) larger)
  constructor
  case stops =>
    intro more
    obtain ⟨rounds, few, closes⟩ := stops more
    exact ⟨rounds, few, draft, reached, closes, rfl, mem_after⟩
  case proper => exact swept.proper
  case inside =>
    intro id mem
    rcases (mem_after id).1 mem with mem | ⟨-, mem⟩
    · exact (swept.inside mem).2
    · exact Nat.lt_of_lt_of_le (inside id mem) larger
  case size => exact size
  case added =>
    exact fun larger => into _ (swept.added inside (congrArg Draft.graph made) larger)
  case keeps => exact fun id node present => swept.keeps_value present
  case nonempty =>
    obtain ⟨id, mem⟩ := List.exists_mem_of_ne_nil frontier start
    obtain ⟨node, -, enters⟩ := once id mem
    exact enters.ne_nil (Atom.link_readsSome well resolved)
  case once => exact once
  case again =>
    intro more first mem id steps
    dsimp only at more
    rw [more] at swept
    have among := swept.closed mem steps
    exact ⟨into id among,
      swept.enters into (reached_mem_sources frontier rfl among) (swept.inside among).2⟩
  case without => exact fun none id mem => (mem_after id).2 (.inr ⟨none, mem⟩)
  case only => exact fun id mem => ((mem_after id).1 mem).imp_left swept.comes_along
  case root =>
    intro mem
    refine ((mem_after 0).1 mem).resolve_left fun among => ?_
    exact absurd (swept.inside among).1 (Nat.lt_irrefl 0)

theorem addPiece_moves_loop :
    let graph : Graph Group Nat :=
      (Lexicon.ofEntries [.pattern "ab*c".toList 1, .pattern ['x'] 2]).graph
    let piece : Piece Atom := ⟨.oneOf [.range 'a' 'c'], .oneOrMore⟩
    let link : Link := .chars [.range 'a' 'c']
    (graph.addPiece [0, 4] ⟨link, .oneOrMore⟩).2 = [2, 3, 1, 5] ∧
      piece.atom.link .none [] = .ok link [] ∧
      graph.Moves [0, 4] ⟨link, .oneOrMore⟩ (graph.addPiece [0, 4] ⟨link, .oneOrMore⟩).1
        (graph.addPiece [0, 4] ⟨link, .oneOrMore⟩).2 := by
  intro graph piece link
  have proper : graph.Proper := Lexicon.ofEntries_proper _
  have inside : ∀ id ∈ [0, 4], id < graph.size := by decide +kernel
  have well : piece.atom.WellRead := .oneOf _ ⟨_, List.mem_cons_self, 'b', by decide⟩
  have resolved : piece.atom.link .none [] = .ok link [] := by rw [Atom.link]; rfl
  exact ⟨by decide +kernel, resolved,
    addPiece_moves proper (by simp) inside well resolved⟩

-- `also` goes along `al`, so only `so` adds nodes.
example : (Lexicon.ofEntries [.pattern "alpha".toList 1]).graph.size = 6 ∧
    (Lexicon.ofEntries [.pattern "alpha".toList 1, .pattern "also".toList 2]).graph.size = 8 := by
  decide +kernel

end Graph

end OpGrammar
