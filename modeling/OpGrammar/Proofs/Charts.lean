import OpGrammar.Lexicon.Group
import OpGrammar.Proofs.Growth
import OpGrammar.Proofs.Ways

/-!
# Graphs and ways

The nodes of a graph are the places of its ways: two ways lead to one node just if they are joined by
the pieces that the graph was made of. A walk goes along a way that spells what it reads.
-/

open scoped Computability

namespace OpGrammar

variable {ν : Type}

/-! ## Along letters -/

def Link.letters : Link → Language Letter
  | .chars items => {w | ∃ c, w = [.char c] ∧ ∃ item ∈ items, item.contains c}
  | .group g label => {[.group g.id label]}

theorem Link.exists_letter {link : Link} {u : Way} (mem : u ∈ link.letters) : ∃ a, u = [a] := by
  cases link with
  | chars items =>
    obtain ⟨c, rfl, -⟩ := mem
    exact ⟨.char c, rfl⟩
  | group group label => exact ⟨_, mem⟩

def Node.next? (node : Node Group ν) : Letter → Option Nat
  | .char c => node.edge? c
  | .group id label =>
    (node.hops.find? fun hop => hop.group.id == id && hop.label == label).map (·.next)

namespace Graph

variable {graph graph' : Graph Group ν} {x y : Way} {a : Letter} {id next : Nat}

def step? (graph : Graph Group ν) (id : Nat) (a : Letter) : Option Nat :=
  graph[id]?.bind (·.next? a)

def path? (graph : Graph Group ν) (way : Way) : Option Nat := way.foldlM graph.step? 0

theorem step?_eq_some :
    graph.step? id a = some next ↔ ∃ node, graph[id]? = some node ∧ node.next? a = some next :=
  Option.bind_eq_some_iff

theorem path?_concat :
    graph.path? (x ++ [a]) = some next ↔
      ∃ id, graph.path? x = some id ∧ graph.step? id a = some next := by
  simp [path?, List.foldlM_append, Option.bind_eq_some_iff]

theorem Extends.step? (grown : graph.Extends graph') (leads : graph.step? id a = some next) :
    graph'.step? id a = some next := by
  obtain ⟨node, present, leads⟩ := step?_eq_some.1 leads
  obtain ⟨node', present', more⟩ := grown id node present
  refine step?_eq_some.2 ⟨node', present', ?_⟩
  cases a with
  | char c => exact more.edge? c next leads
  | group gid label =>
    obtain ⟨hop, found, rfl⟩ := Option.map_eq_some_iff.1 leads
    obtain ⟨later, eq⟩ := more.hops
    rw [Node.next?, ← eq, List.find?_append, found]
    rfl

theorem Extends.path? (grown : graph.Extends graph') (leads : graph.path? x = some id) :
    graph'.path? x = some id := by
  induction x using List.reverseRecOn generalizing id with
  | nil => exact leads
  | append_singleton x a ih =>
    obtain ⟨before, there, last⟩ := path?_concat.1 leads
    exact path?_concat.2 ⟨before, ih there, grown.step? last⟩

theorem Proper.step? (proper : graph.Proper) (leads : graph.step? id a = some next) :
    next < graph.size := by
  obtain ⟨node, present, leads⟩ := step?_eq_some.1 leads
  cases a with
  | char c => exact (proper.edge id node c next present leads).2
  | group gid label =>
    obtain ⟨hop, found, rfl⟩ := Option.map_eq_some_iff.1 leads
    exact (proper.hop id node hop present (List.mem_of_find?_eq_some found)).2

theorem Proper.path? (proper : graph.Proper) (leads : graph.path? x = some id) :
    id < graph.size := by
  rcases List.eq_nil_or_concat' x with rfl | ⟨x, a, rfl⟩
  · cases leads
    exact proper.nonempty
  · obtain ⟨before, -, last⟩ := path?_concat.1 leads
    exact proper.step? last

theorem goes_iff {link : Link} :
    graph.Goes link id next ↔ ∃ a, [a] ∈ link.letters ∧ graph.step? id a = some next := by
  constructor
  · rintro ⟨node, present, target⟩
    cases link with
    | chars items =>
      obtain ⟨c, read, leads⟩ := (Node.mem_targets_chars items next).1 target
      exact ⟨.char c, ⟨c, rfl, read⟩, step?_eq_some.2 ⟨node, present, leads⟩⟩
    | group group label =>
      have leads := (Node.mem_targets_group group label next).1 target
      exact ⟨.group group.id label, rfl, step?_eq_some.2 ⟨node, present, leads⟩⟩
  · rintro ⟨a, mem, leads⟩
    obtain ⟨node, present, leads⟩ := step?_eq_some.1 leads
    refine ⟨node, present, ?_⟩
    cases link with
    | chars items =>
      obtain ⟨c, same, read⟩ := mem
      obtain rfl := List.singleton_inj.1 same
      exact (Node.mem_targets_chars items next).2 ⟨c, read, leads⟩
    | group group label =>
      obtain rfl := List.singleton_inj.1 mem
      exact (Node.mem_targets_group group label next).2 leads

theorem exists_step?_of_has {link : Link} {node : Node Group ν} (present : graph[id]? = some node)
    (has : node.Has link) (mem : [a] ∈ link.letters) : ∃ next, graph.step? id a = some next := by
  suffices (node.next? a).isSome by
    obtain ⟨next, leads⟩ := Option.isSome_iff_exists.1 this
    exact ⟨next, step?_eq_some.2 ⟨node, present, leads⟩⟩
  cases link with
  | chars items =>
    obtain ⟨c, same, item, among, read⟩ := mem
    obtain rfl := List.singleton_inj.1 same
    exact has item among c read
  | group group label =>
    obtain rfl := List.singleton_inj.1 mem
    exact has

end Graph

/-! ## Charts -/

/-- All that the group finds is in the language. -/
def Group.Finds (group : Group) (l : Language Char) : Prop :=
  ∀ text found, group.run text = some found → text.take found.length ∈ l

def Link.Finds (groups : GroupId → Language Char) : Link → Prop
  | .chars _ => True
  | .group g _ => g.Finds (groups g.id)

/-- The nodes of the graph are the places that the pieces make. -/
structure Charted (graph : Graph Group ν) (spots : List Spot) (groups : GroupId → Language Char) :
    Prop where
  proper : graph.Proper
  joined : ∀ x y, Joined spots x y ↔ ∃ id, graph.path? x = some id ∧ graph.path? y = some id
  /-- No other hop stands before this one. -/
  first : ∀ (id : Nat) (node : Node Group ν) hop, graph[id]? = some node → hop ∈ node.hops →
    node.hop? hop.group hop.label = some hop.next
  finds : ∀ (id : Nat) (node : Node Group ν) hop, graph[id]? = some node → hop ∈ node.hops →
    hop.group.Finds (groups hop.group.id)

/-- The nodes of the frontier are those that the ways lead to. -/
structure Meets (graph : Graph Group ν) (frontier : List Nat) (past : Language Letter) : Prop where
  covers : ∀ x ∈ past, ∃ id ∈ frontier, graph.path? x = some id
  comes : ∀ id ∈ frontier, ∃ x ∈ past, graph.path? x = some id

theorem Meets.mono {graph graph' : Graph Group ν} {frontier : List Nat} {past : Language Letter}
    (meets : Meets graph frontier past) (grown : graph.Extends graph') :
    Meets graph' frontier past := by
  refine ⟨fun x mem => ?_, fun id start => ?_⟩
  · obtain ⟨id, start, here⟩ := meets.covers x mem
    exact ⟨id, start, grown.path? here⟩
  · obtain ⟨x, mem, here⟩ := meets.comes id start
    exact ⟨x, mem, grown.path? here⟩

theorem Meets.join {graph : Graph Group ν} {ends others : List Nat} {l l' : Language Letter}
    (meets : Meets graph ends l) (meets' : Meets graph others l') :
    Meets graph (joinNodes ends others) (l + l') := by
  refine ⟨fun x mem => ?_, fun id mem => ?_⟩
  · rcases mem with mem | mem
    · obtain ⟨id, among, here⟩ := meets.covers x mem
      exact ⟨id, mem_joinNodes.2 (.inl among), here⟩
    · obtain ⟨id, among, here⟩ := meets'.covers x mem
      exact ⟨id, mem_joinNodes.2 (.inr among), here⟩
  · rcases mem_joinNodes.1 mem with among | among
    · obtain ⟨x, mem, here⟩ := meets.comes id among
      exact ⟨x, .inl mem, here⟩
    · obtain ⟨x, mem, here⟩ := meets'.comes id among
      exact ⟨x, .inr mem, here⟩

theorem meets_start (graph : Graph Group ν) : Meets graph [0] 1 := by
  refine ⟨?_, ?_⟩
  · rintro _ rfl
    exact ⟨0, List.mem_cons_self, rfl⟩
  · intro id mem
    obtain rfl := List.mem_singleton.1 mem
    exact ⟨[], Language.nil_mem_one, rfl⟩

theorem charted_empty (groups : GroupId → Language Char) :
    Charted (Graph.empty : Graph Group ν) [] groups := by
  have hopless {id : Nat} {node : Node Group ν} (present : Graph.empty[id]? = some node) :
      node = Node.blank := by
    obtain ⟨inside, rfl⟩ := Array.getElem?_eq_some_iff.1 present
    simp [Graph.empty]
  have path {x : Way} {id : Nat} (leads : (Graph.empty : Graph Group ν).path? x = some id) :
      x = [] := by
    rcases List.eq_nil_or_concat' x with rfl | ⟨x, a, rfl⟩
    · rfl
    · obtain ⟨before, -, last⟩ := Graph.path?_concat.1 leads
      obtain ⟨node, present, next⟩ := Graph.step?_eq_some.1 last
      rw [hopless present] at next
      cases a <;> cases next
  refine ⟨Graph.proper_empty, fun x y => ⟨?_, ?_⟩, ?_, ?_⟩
  · rintro ⟨rfl, rfl⟩
    exact ⟨0, rfl, rfl⟩
  · rintro ⟨id, left, right⟩
    exact ⟨path left, path right⟩
  · intro id node hop present mem
    rw [hopless present] at mem
    cases mem
  · intro id node hop present mem
    rw [hopless present] at mem
    cases mem

/-! ### A piece

All that a piece opens leads to the one new node, and from there only back to it. -/

namespace Graph

section Piece

variable {graph graph' : Graph Group ν} {frontier reached : List Nat} {link : Link} {more : Bool}
  {spots : List Spot} {groups : GroupId → Language Char} {past : Language Letter} {x y : Way}
  {a : Letter} {id next : Nat}

theorem Swept.step?_cases (swept : graph.Swept frontier link more graph' reached)
    (leads : graph'.step? id a = some next) : graph.step? id a = some next ∨
      id ∈ sources frontier reached more ∧ next = graph.size ∧ [a] ∈ link.letters := by
  obtain ⟨node', present', leads'⟩ := step?_eq_some.1 leads
  cases a with
  | char c =>
    rcases swept.edge id node' c next present' leads' with
      ⟨node, present, old⟩ | ⟨source, new, items, rfl, read⟩
    · exact .inl (step?_eq_some.2 ⟨node, present, old⟩)
    · exact .inr ⟨source, new, c, rfl, read⟩
  | group gid label =>
    obtain ⟨hop, found, rfl⟩ := Option.map_eq_some_iff.1 leads'
    have matched := List.find?_some found
    rcases swept.hop id node' hop present' (List.mem_of_find?_eq_some found) with
      ⟨node, present, old⟩ | ⟨source, new, rfl, -⟩
    · -- The old node has a first such hop as well, which stays the first one.
      have some : (node.next? (.group gid label)).isSome := by
        rw [Node.next?, Option.isSome_map]
        exact List.find?_isSome.2 ⟨hop, old, matched⟩
      obtain ⟨next, known⟩ := Option.isSome_iff_exists.1 some
      have step := step?_eq_some.2 ⟨node, present, known⟩
      rw [Option.some.inj (leads.symm.trans (swept.keeps.step? step))]
      exact .inl step
    · simp only [Bool.and_eq_true, beq_iff_eq] at matched
      obtain ⟨rfl, rfl⟩ := matched
      exact .inr ⟨source, new, rfl⟩

theorem step?_size (a : Letter) : graph.step? graph.size a = none := by
  simp [step?]

theorem Swept.path?_of_ne (swept : graph.Swept frontier link more graph' reached)
    (leads : graph'.path? x = some id) (old : id ≠ graph.size) : graph.path? x = some id := by
  induction x using List.reverseRecOn generalizing id with
  | nil => exact leads
  | append_singleton x a ih =>
    obtain ⟨before, there, last⟩ := path?_concat.1 leads
    rcases swept.step?_cases last with last | ⟨-, new, -⟩
    · refine path?_concat.2 ⟨before, ih there fun new => ?_, last⟩
      rw [new, step?_size] at last
      cases last
    · exact absurd new old

theorem Swept.size_mem_reached (swept : graph.Swept frontier link more graph' reached)
    (proper : graph.Proper) (leads : graph'.path? x = some graph.size) : graph.size ∈ reached := by
  rcases List.eq_nil_or_concat' x with rfl | ⟨x, a, rfl⟩
  · have same : 0 = graph.size := Option.some.inj leads
    exact absurd proper.nonempty (by omega)
  · obtain ⟨before, -, last⟩ := path?_concat.1 leads
    rcases swept.step?_cases last with old | ⟨source, -, reads⟩
    · exact absurd (proper.step? old) (Nat.lt_irrefl _)
    · exact swept.goes before source _ (goes_iff.2 ⟨a, reads, last⟩)

theorem Swept.exists_step? (swept : graph.Swept frontier link more graph' reached)
    (source : id ∈ sources frontier reached more) (there : graph'.path? x = some id)
    (reads : [a] ∈ link.letters) : ∃ next, graph'.step? id a = some next := by
  have present := Array.getElem?_eq_getElem (swept.proper.path? there)
  exact exists_step?_of_has present (swept.has id source _ present) reads

theorem Swept.step_of_mem (swept : graph.Swept frontier link more graph' reached) :
    ∀ id ∈ sources frontier reached more, ∀ x, graph'.path? x = some id → ∀ u ∈ link.letters,
      ∃ next, graph'.Goes link id next ∧ graph'.path? (x ++ u) = some next := by
  intro id source x here u reads
  obtain ⟨a, rfl⟩ := link.exists_letter reads
  obtain ⟨next, leads⟩ := swept.exists_step? source here reads
  exact ⟨next, goes_iff.2 ⟨a, reads, leads⟩, path?_concat.2 ⟨id, here, leads⟩⟩

theorem mem_of_goes {id next : Nat} (here : graph.path? x = some id) (goes : graph.Goes link id next) :
    ∃ u ∈ link.letters, graph.path? (x ++ u) = some next := by
  obtain ⟨a, reads, leads⟩ := goes_iff.1 goes
  exact ⟨[a], reads, path?_concat.2 ⟨id, here, leads⟩⟩

theorem Swept.opens_of_path? (swept : graph.Swept frontier link more graph' reached)
    (charted : Charted graph spots groups) (meets : Meets graph frontier past)
    (leads : graph'.path? x = some graph.size) :
    Spot.Opens (Joined spots) ⟨past, link.letters, more⟩ x := by
  have meets' := meets.mono swept.keeps
  induction x using List.reverseRecOn with
  | nil =>
    have same : 0 = graph.size := Option.some.inj leads
    exact absurd charted.proper.nonempty (by omega)
  | append_singleton x a ih =>
    obtain ⟨id, there, last⟩ := path?_concat.1 leads
    rcases swept.step?_cases last with old | ⟨source, -, reads⟩
    · exact absurd (charted.proper.step? old) (Nat.lt_irrefl _)
    by_cases new : id = graph.size
    · subst new
      rcases mem_sources.1 source with start | ⟨may, -⟩
      · obtain ⟨y, -, here⟩ := meets.comes _ start
        exact absurd (charted.proper.path? here) (Nat.lt_irrefl _)
      · exact .again may (ih there) reads
    · obtain ⟨y, mem, here⟩ := swept.mem_of_sources (fun id x => graph'.path? x = some id)
        meets'.comes (fun _ _ here _ => mem_of_goes here) id source
      have same : Joined spots x y :=
        (charted.joined x y).2 ⟨id, swept.path?_of_ne there new, swept.path?_of_ne here new⟩
      refine .first mem same reads fun known => ?_
      obtain ⟨next, old, -⟩ := (charted.joined _ _).1 known
      have inside := charted.proper.path? old
      rw [Option.some.inj ((swept.keeps.path? old).symm.trans leads)] at inside
      exact absurd inside (Nat.lt_irrefl _)

theorem Swept.path?_of_opens (swept : graph.Swept frontier link more graph' reached)
    (charted : Charted graph spots groups) (meets : Meets graph frontier past)
    (opens : Spot.Opens (Joined spots) ⟨past, link.letters, more⟩ x) :
    graph'.path? x = some graph.size := by
  have meets' := meets.mono swept.keeps
  induction opens with
  | @first x y a before same reads new =>
    obtain ⟨id, here, there⟩ := (charted.joined x y).1 same
    obtain ⟨source, among, there'⟩ := swept.sources_of_mem (fun id x => graph'.path? x = some id)
      meets'.covers swept.step_of_mem y before
    obtain rfl := Option.some.inj ((swept.keeps.path? there).symm.trans there')
    obtain ⟨next, leads⟩ := swept.exists_step? among there' reads
    rcases swept.step?_cases leads with old | ⟨-, rfl, -⟩
    · have known := path?_concat.2 ⟨id, here, old⟩
      exact absurd ((charted.joined _ _).2 ⟨next, known, known⟩) new
    · exact path?_concat.2 ⟨id, swept.keeps.path? here, leads⟩
  | @again x a may _ reads ih =>
    have source := reached_mem_sources frontier may (swept.size_mem_reached charted.proper ih)
    obtain ⟨next, leads⟩ := swept.exists_step? source ih reads
    rcases swept.step?_cases leads with old | ⟨-, rfl, -⟩
    · rw [step?_size] at old
      cases old
    · exact path?_concat.2 ⟨_, ih, leads⟩

/-- The ways to the new node are those that the piece opens. -/
theorem Swept.path?_size_iff (swept : graph.Swept frontier link more graph' reached)
    (charted : Charted graph spots groups) (meets : Meets graph frontier past) :
    graph'.path? x = some graph.size ↔
      Spot.Opens (Joined spots) ⟨past, link.letters, more⟩ x :=
  ⟨swept.opens_of_path? charted meets, swept.path?_of_opens charted meets⟩

theorem Swept.joined_iff (swept : graph.Swept frontier link more graph' reached)
    (charted : Charted graph spots groups) (meets : Meets graph frontier past) :
    Joined (spots ++ [⟨past, link.letters, more⟩]) x y ↔
      ∃ id, graph'.path? x = some id ∧ graph'.path? y = some id := by
  rw [joined_concat, Spot.Joins, ← swept.path?_size_iff charted meets,
    ← swept.path?_size_iff charted meets, charted.joined]
  constructor
  · rintro (⟨id, left, right⟩ | ⟨left, right⟩)
    · exact ⟨id, swept.keeps.path? left, swept.keeps.path? right⟩
    · exact ⟨graph.size, left, right⟩
  · rintro ⟨id, left, right⟩
    by_cases new : id = graph.size
    · subst new
      exact .inr ⟨left, right⟩
    · exact .inl ⟨id, swept.path?_of_ne left new, swept.path?_of_ne right new⟩

theorem Swept.hop?_of_mem (swept : graph.Swept frontier link more graph' reached)
    (charted : Charted graph spots groups) {node' : Node Group ν} {hop : Hop Group}
    (present' : graph'[id]? = some node') (mem : hop ∈ node'.hops) :
    node'.hop? hop.group hop.label = some hop.next := by
  rcases swept.hop id node' hop present' mem with
    ⟨node, present, old⟩ | ⟨-, new, -, lacks⟩
  · obtain ⟨node'', present'', more⟩ := swept.keeps id node present
    obtain rfl := Option.some.inj (present'.symm.trans present'')
    exact more.hop? hop.group hop.label hop.next (charted.first id node hop present old)
  · have itself : hop.goesThrough hop.group hop.label := by simp [Hop.goesThrough]
    have some : (node'.hop? hop.group hop.label).isSome := by
      rw [Node.hop?, Option.isSome_map]
      exact List.find?_isSome.2 ⟨hop, mem, itself⟩
    obtain ⟨next, known⟩ := Option.isSome_iff_exists.1 some
    obtain ⟨first, found, rfl⟩ := Option.map_eq_some_iff.1 known
    have matched := List.find?_some found
    refine known.trans (congrArg _ ?_)
    rcases swept.hop id node' first present' (List.mem_of_find?_eq_some found) with
      ⟨node, present, old⟩ | ⟨-, new', -, -⟩
    · -- A hop that is as old would have kept the new one away.
      have none := lacks node present
      rw [Node.hop?, Option.map_eq_none_iff, List.find?_eq_none] at none
      exact absurd matched (none first old)
    · exact new'.trans new.symm

theorem Swept.charted (swept : graph.Swept frontier link more graph' reached)
    (charted : Charted graph spots groups) (meets : Meets graph frontier past)
    (finds : link.Finds groups) :
    Charted graph' (spots ++ [⟨past, link.letters, more⟩]) groups where
  proper := swept.proper
  joined _ _ := swept.joined_iff charted meets
  first _ _ _ present' mem := swept.hop?_of_mem charted present' mem
  finds id node' hop present' mem := by
    rcases swept.hop id node' hop present' mem with ⟨node, present, old⟩ | ⟨-, -, rfl, -⟩
    · exact charted.finds id node hop present old
    · exact finds

theorem Swept.meets {quantifier : Quantifier}
    (swept : graph.Swept frontier link quantifier.allowsMore graph' reached)
    (meets : Meets graph frontier past) :
    Meets graph' (if quantifier.allowsNone then joinNodes reached frontier else reached)
      (past * quantifier.language link.letters) := by
  have meets' := meets.mono swept.keeps
  let leads (id : Nat) (x : Way) : Prop := graph'.path? x = some id
  exact ⟨swept.covers leads meets'.covers swept.step_of_mem,
    swept.comes_of leads meets'.comes fun _ _ here _ => mem_of_goes here⟩

end Piece

/-! ### Patterns -/

variable {graph : Graph Group ν} {spots : List Spot} {groups : GroupId → Language Char}

theorem addBranch_charted {frontier : List Nat} {past : Language Letter}
    (charted : Charted graph spots groups) (meets : Meets graph frontier past)
    (pieces : List (Piece Link)) (finds : ∀ piece ∈ pieces, piece.atom.Finds groups) :
    Charted (graph.addBranch frontier pieces).1 (spots ++ spotsOfBranch Link.letters past pieces)
        groups ∧
      Meets (graph.addBranch frontier pieces).1 (graph.addBranch frontier pieces).2
        (past * languageOfBranch Link.letters pieces) := by
  induction pieces generalizing graph spots frontier past with
  | nil =>
    simp only [spotsOfBranch, languageOfBranch, mul_one, List.append_nil]
    exact ⟨charted, meets⟩
  | cons piece pieces ih =>
    obtain ⟨first, others⟩ := List.forall_mem_cons.1 finds
    obtain ⟨graph', reached, eq, swept⟩ := addPiece_spec charted.proper frontier piece
    have later := ih (swept.charted charted meets first) (swept.meets meets) others
    rw [List.append_assoc, mul_assoc] at later
    unfold addBranch
    rw [eq]
    exact later

theorem addBranches_charted (charted : Charted graph spots groups) (branches : Branches Link)
    (finds : ∀ branch ∈ branches, ∀ piece ∈ branch, piece.atom.Finds groups) :
    Charted (graph.addBranches [0] branches).1 (spots ++ branches.spots Link.letters) groups ∧
      Meets (graph.addBranches [0] branches).1 (graph.addBranches [0] branches).2
        (branches.language Link.letters) := by
  induction branches generalizing graph spots with
  | nil =>
    refine ⟨by simpa [Branches.spots, addBranches] using charted, ?_, by simp [addBranches]⟩
    exact fun x never => absurd never (Language.notMem_zero x)
  | cons branch branches ih =>
    obtain ⟨first, others⟩ := List.forall_mem_cons.1 finds
    obtain ⟨charted', meets'⟩ := addBranch_charted charted (meets_start graph) branch first
    obtain ⟨charted'', meets''⟩ := ih charted' others
    rw [List.append_assoc] at charted''
    rw [one_mul] at meets'
    have ends := meets'.mono (addBranches_grows charted'.proper [0] branches).1
    exact ⟨charted'', ends.join meets''⟩

end Graph

theorem Graph.addValue_path? {graph : Graph Group ν} (ends : List Nat) (v : ν) :
    (graph.addValue ends v).path? = graph.path? := by
  have same : (graph.addValue ends v).step? = graph.step? := by
    funext id a
    rw [step?, step?, addValue_getElem?, Option.bind_map]
    refine congrArg _ (funext fun node => ?_)
    dsimp only [Function.comp]
    split <;> cases a <;> rfl
  funext way
  rw [path?, path?, same]

theorem Charted.addValue {graph : Graph Group ν} {spots : List Spot}
    {groups : GroupId → Language Char} (charted : Charted graph spots groups) (ends : List Nat)
    (v : ν) : Charted (graph.addValue ends v) spots groups := by
  refine ⟨Graph.proper_addValue charted.proper ends v, fun x y => ?_, ?_, ?_⟩
  · rw [Graph.addValue_path?]
    exact charted.joined x y
  · intro id node' hop present mem
    obtain ⟨node, before, -, hops, -⟩ := Graph.addValue_links ends v id node' present
    have first := charted.first id node hop before (hops ▸ mem)
    rwa [Node.hop?, hops] at first
  · intro id node' hop present mem
    obtain ⟨node, before, -, hops, -⟩ := Graph.addValue_links ends v id node' present
    exact charted.finds id node hop before (hops ▸ mem)

/-- The values of the graph are at the places of words. -/
structure Ends (graph : Graph Group ν) (words : ν → Language Letter) : Prop where
  value : ∀ (id : Nat) (node : Node Group ν) v, graph[id]? = some node → node.value = some v →
    ∃ y ∈ words v, graph.path? y = some id
  whole : ∀ v, ∀ y ∈ words v, ∃ (id : Nat) (node : Node Group ν), graph.path? y = some id ∧
    graph[id]? = some node ∧ node.value.isSome

theorem ends_empty : Ends (Graph.empty : Graph Group ν) fun _ => 0 := by
  refine ⟨fun id node v present known => ?_, fun v y never => absurd never (Language.notMem_zero y)⟩
  obtain ⟨inside, rfl⟩ := Array.getElem?_eq_some_iff.1 present
  simp [Graph.empty, Node.blank] at known

section Pattern

variable {graph : Graph Group ν} {spots : List Spot} {groups : GroupId → Language Char}
  {branches : Branches Link}

theorem Charted.addPattern (charted : Charted graph spots groups) (v : ν)
    (finds : ∀ branch ∈ branches, ∀ piece ∈ branch, piece.atom.Finds groups) :
    Charted (graph.addPattern branches v) (spots ++ branches.spots Link.letters) groups :=
  (Graph.addBranches_charted charted branches finds).1.addValue _ v

theorem Ends.addPattern {words words' : ν → Language Letter} (ends : Ends graph words)
    (charted : Charted graph spots groups) (v : ν)
    (finds : ∀ branch ∈ branches, ∀ piece ∈ branch, piece.atom.Finds groups)
    (split : ∀ w y, y ∈ words' w ↔ y ∈ words w ∨ w = v ∧ y ∈ branches.language Link.letters) :
    Ends (graph.addPattern branches v) words' := by
  have meets := (Graph.addBranches_charted charted branches finds).2
  have grown := (Graph.addPattern_grows charted.proper branches v).1
  have path : (graph.addPattern branches v).path? = (graph.addBranches [0] branches).1.path? :=
    Graph.addValue_path? _ v
  refine ⟨fun id node w present known => ?_, fun w y mem => ?_⟩
  · rcases Graph.addPattern_value charted.proper branches v id node w present known with
      ⟨node', before, old⟩ | ⟨rfl, among⟩
    · obtain ⟨y, mem, there⟩ := ends.value id node' w before old
      exact ⟨y, (split w y).2 (.inl mem), grown.path? there⟩
    · obtain ⟨y, mem, there⟩ := meets.comes id among
      exact ⟨y, (split w y).2 (.inr ⟨rfl, mem⟩), path ▸ there⟩
  · rcases (split w y).1 mem with mem | ⟨rfl, mem⟩
    · obtain ⟨id, node, there, present, valued⟩ := ends.whole w y mem
      obtain ⟨node', present', more⟩ := grown id node present
      obtain ⟨v', known⟩ := Option.isSome_iff_exists.1 valued
      exact ⟨id, node', grown.path? there, present', by rw [more.value v' known]; rfl⟩
    · obtain ⟨id, among, there⟩ := meets.covers y mem
      rw [← path] at there
      have proper := (Graph.addPattern_grows charted.proper branches w).2
      have present := Array.getElem?_eq_getElem (proper.path? there)
      exact ⟨id, _, there, present, Graph.addPattern_ends branches w id among _ present⟩

end Pattern

/-! ## Walks -/

/-- The text is spelled by a way to a node with the value. -/
def Graph.Spells (graph : Graph Group ν) (groups : GroupId → Language Char) (t : Text) (v : ν) :
    Prop :=
  ∃ y last node, graph.path? y = some last ∧ t ∈ Way.language groups y ∧
    graph[last]? = some node ∧ node.value = some v

section Walks

variable {graph : Graph Group ν} {spots : List Spot} {groups : GroupId → Language Char}

theorem Charted.walk (charted : Charted graph spots groups) (entered : List Nat) (id : Nat)
    (text : Text) (x : Way) (t : Text) (here : graph.path? x = some id)
    (reads : t ∈ Way.language groups x) (found : Found ν)
    (h : graph.walk Group.run entered id text = some found) :
    graph.Spells groups (t ++ text.take found.length) found.value := by
  -- A walk ends where it goes on to, or else where it is.
  have stops (id : Nat) (text : Text) (node : Node Group ν) (present : graph[id]? = some node)
      (x : Way) (t : Text) (here : graph.path? x = some id) (reads : t ∈ Way.language groups x)
      (found : Found ν) (h : node.value.map Found.here = some found) :
      graph.Spells groups (t ++ text.take found.length) found.value := by
    obtain ⟨v, known, rfl⟩ := Option.map_eq_some_iff.1 h
    exact ⟨x, id, node, here, by simpa [Found.here] using reads, present, known⟩
  refine Graph.walk_induction
    (motive := fun _ id text result => ∀ x t, graph.path? x = some id →
      t ∈ Way.language groups x → ∀ found, result = some found →
      graph.Spells groups (t ++ text.take found.length) found.value)
    ?_ ?_ ?_ ?_ entered id text x t here reads found h
  · intro entered id text _ x t _ _ found h
    cases h
  · intro entered id text node next present leads ih x t here reads found h
    rcases Option.or_eq_some_iff.1 h with h | ⟨-, h⟩
    · obtain ⟨later, walked, rfl⟩ := Option.map_eq_some_iff.1 h
      cases text with
      | nil => cases leads
      | cons c text =>
        have next : node.next? (.char c) = some next := leads
        have step := Graph.path?_concat.2 ⟨id, here, Graph.step?_eq_some.2 ⟨node, present, next⟩⟩
        have further := ih _ (t ++ [c]) step (Way.concat_mem_language reads rfl) later walked
        simpa [Found.after, Nat.add_comm 1] using further
    · exact stops id text node present x t here reads found h
  · intro entered id text node hop first present _ taken ih x t here reads found h
    rcases Option.or_eq_some_iff.1 h with h | ⟨-, h⟩
    · obtain ⟨later, walked, rfl⟩ := Option.map_eq_some_iff.1 h
      obtain ⟨mem, ran, -⟩ := Graph.of_firstHop? taken
      have next : node.next? (.group hop.group.id hop.label) = some hop.next :=
        charted.first id node hop present mem
      have step := Graph.path?_concat.2 ⟨id, here, Graph.step?_eq_some.2 ⟨node, present, next⟩⟩
      have part := charted.finds id node hop present mem text first ran
      have further := ih _ _ step (Way.concat_mem_language reads part) later walked
      simpa [Found.after, List.take_add] using further
    · exact stops id text node present x t here reads found h
  · intro entered id text node present _ _ x t here reads found h
    exact stops id text node present x t here reads found h

/-- What a walk through a graph reads is spelled by a way that is joined with a word. -/
theorem Charted.walk_spelled {words : ν → Language Letter} (charted : Charted graph spots groups)
    (ends : Ends graph words) (text : Text) (found : Found ν)
    (h : graph.walk Group.run [0] 0 text = some found) : ∃ y ∈ words found.value, ∃ x,
      Joined spots x y ∧ text.take found.length ∈ Way.language groups x := by
  obtain ⟨x, last, node, here, spelled, present, known⟩ :=
    charted.walk [0] 0 text [] [] rfl rfl found h
  obtain ⟨y, mem, there⟩ := ends.value last node found.value present known
  exact ⟨y, mem, x, (charted.joined x y).2 ⟨last, here, there⟩, spelled⟩

end Walks

theorem ofBranches_finds {groups : GroupId → Language Char} {branches : Branches Link}
    (finds : ∀ branch ∈ branches, ∀ piece ∈ branch, piece.atom.Finds groups) (id : GroupId) :
    (Group.ofBranches id branches).Finds (spelled groups
      (joinedWith (branches.spots Link.letters) (branches.language Link.letters))) := by
  have start := charted_empty (ν := Unit) groups
  have charted := start.addPattern () finds
  have ends : Ends (Graph.empty.addPattern branches ()) fun _ => branches.language Link.letters :=
    ends_empty.addPattern start () finds fun _ y => by simp [Language.notMem_zero]
  intro text found ran
  rw [Group.run_eq] at ran
  obtain ⟨y, mem, x, joined, reads⟩ := charted.walk_spelled ends text found ran
  exact ⟨x, ⟨y, mem, joined⟩, reads⟩

end OpGrammar
