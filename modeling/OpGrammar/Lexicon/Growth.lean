import OpGrammar.Lexicon.Graph

/-!
# Growing a graph

A pattern is added along what the graph already has: a frontier holds the nodes reached so far,
and each piece moves it on. Where a node lacks a link, it gets one to the one new node of the piece,
which is only added when the first node lacks it. Nothing that was there is changed, so patterns
that begin alike share their beginnings.
-/

namespace OpGrammar

/-- What a piece reads in one go: a character of some items, or what a group matches. -/
inductive Link where
  | chars (items : List ClassItem)
  | group (group : Group) (label : Option Text)

/-- The nodes of the first list together with those of the second, none of them twice. -/
def joinNodes (nodes more : List Nat) : List Nat := more.foldr List.insert nodes

@[simp]
theorem mem_joinNodes {nodes more : List Nat} {id : Nat} :
    id ∈ joinNodes nodes more ↔ id ∈ nodes ∨ id ∈ more := by
  induction more with
  | nil => simp [joinNodes]
  | cons m more ih =>
    simp only [joinNodes, List.foldr_cons, List.mem_insert_iff, List.mem_cons] at ih ⊢
    rw [ih]
    grind

theorem nodup_joinNodes {nodes : List Nat} (h : nodes.Nodup) (more : List Nat) :
    (joinNodes nodes more).Nodup := by
  induction more with
  | nil => exact h
  | cons m more ih =>
    simp only [joinNodes, List.foldr_cons] at ih ⊢
    by_cases mem : m ∈ more.foldr List.insert nodes
    · rwa [List.insert_of_mem mem]
    · rw [List.insert_of_not_mem mem]
      exact List.nodup_cons.2 ⟨mem, ih⟩

namespace Node

variable {ν : Type}

/-- Whether the link leads somewhere from the node, whatever it reads. -/
def hasLink (node : Node Group ν) : Link → Bool
  | .chars items => items.all fun item => item.chars.all fun c => (node.edge? c).isSome
  | .group group label => (node.hop? group label).isSome

/-- The node with a way along the link, which leads to `fresh` where there was none. -/
def addLink (fresh : Nat) (link : Link) (node : Node Group ν) : Node Group ν :=
  match link with
  | .chars items =>
    let missing := items.filter fun item => item.chars.any fun c => (node.edge? c).isNone
    { node with edges := node.edges ++ missing.map (·, fresh) }
  | .group group label =>
    if (node.hop? group label).isSome then node
    else { node with hops := node.hops ++ [⟨group, label, fresh⟩] }

def targets (node : Node Group ν) : Link → List Nat
  | .chars items => joinNodes [] ((items.flatMap ClassItem.chars).filterMap node.edge?)
  | .group group label => (node.hop? group label).toList

/-- The node with a value, unless it has one already. -/
def addValue (value : ν) (node : Node Group ν) : Node Group ν :=
  { node with value := node.value.or (some value) }

end Node

namespace Graph

variable {ν : Type}

def targets (graph : Graph Group ν) (frontier : List Nat) (link : Link) : List Nat :=
  frontier.foldl
    (fun found id => joinNodes found ((graph[id]?.map (·.targets link)).getD [])) []

end Graph

/-- A graph while a piece is added to it, and the node that is new in it, if the piece has needed
one so far. -/
structure Draft (ν : Type) where
  graph : Graph Group ν
  fresh : Option Nat

namespace Draft

variable {ν : Type}

/-- The one new node of the piece. It is added when it is asked for the first time. -/
def freshNode (draft : Draft ν) : Nat × Draft ν :=
  match draft.fresh with
  | some fresh => (fresh, draft)
  | none => (draft.graph.size, ⟨draft.graph.push Node.blank, some draft.graph.size⟩)

def addLinkAt (link : Link) (draft : Draft ν) (id : Nat) : Draft ν :=
  if draft.graph[id]?.any (·.hasLink link) then draft
  else
    let (fresh, draft) := draft.freshNode
    { draft with graph := draft.graph.modify id (Node.addLink fresh link) }

def addLink (draft : Draft ν) (frontier : List Nat) (link : Link) : Draft ν :=
  frontier.foldl (addLinkAt link) draft

/-- Links the nodes reached to where the link leads from them, until it leads nowhere else. Each
round but the last takes in a node, so there are at most as many rounds as nodes. -/
def closeLink (draft : Draft ν) (reached : List Nat) (link : Link) :
    (rounds : Nat) → Draft ν × List Nat
  | 0 => (draft, reached)
  | rounds + 1 =>
    let draft := draft.addLink reached link
    let again := draft.graph.targets reached link
    if again.all (· ∈ reached) then (draft, reached)
    else draft.closeLink (joinNodes reached again) link rounds

end Draft

namespace Graph

variable {ν : Type}

/-- Adds a piece after every node of the frontier. Gives the nodes after the piece. -/
def addPiece (graph : Graph Group ν) (frontier : List Nat) (piece : Piece Link) :
    Graph Group ν × List Nat :=
  let draft := Draft.addLink ⟨graph, none⟩ frontier piece.atom
  let reached := draft.graph.targets frontier piece.atom
  let (draft, reached) :=
    if piece.quantifier.allowsMore then draft.closeLink reached piece.atom (graph.size + 1)
    else (draft, reached)
  (draft.graph, if piece.quantifier.allowsNone then joinNodes reached frontier else reached)

def addBranch (graph : Graph Group ν) (frontier : List Nat) :
    List (Piece Link) → Graph Group ν × List Nat
  | [] => (graph, frontier)
  | piece :: pieces =>
    let (graph, frontier) := graph.addPiece frontier piece
    graph.addBranch frontier pieces

/-- Adds every branch after the same frontier. Gives the nodes after any of them. -/
def addBranches (graph : Graph Group ν) (frontier : List Nat) :
    Branches Link → Graph Group ν × List Nat
  | [] => (graph, [])
  | branch :: branches =>
    let (graph, ends) := graph.addBranch frontier branch
    let (graph, others) := graph.addBranches frontier branches
    (graph, joinNodes ends others)

/-- Gives the value to every node of a list that has none. -/
def addValue (graph : Graph Group ν) (ends : List Nat) (value : ν) : Graph Group ν :=
  ends.foldl (fun graph id => graph.modify id (Node.addValue value)) graph

def addPattern (graph : Graph Group ν) (branches : Branches Link) (value : ν) : Graph Group ν :=
  let (graph, ends) := graph.addBranches [0] branches
  graph.addValue ends value

end Graph

def Group.ofBranches (id : GroupId) (branches : Branches Link) : Group :=
  .mk id (Graph.empty.addPattern branches ())

end OpGrammar
