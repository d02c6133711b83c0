import OpGrammar.Pattern.Basic

/-!
# Graphs

Patterns are kept in one graph that all of them share. A node is left by an edge, which reads one
character, or by a hop, which reads what a group matches. A node with a value ends a pattern.
-/

namespace OpGrammar

/-- Which group it is. Two groups with one text, or two meanings of one name, are different groups
if a name got a new meaning between them, which starts a new generation. -/
inductive GroupId where
  | inline (source : Text) (generation : Nat)
  | named (name : Text) (generation : Nat)
  deriving DecidableEq, Repr

/-- The way through a group. What the group reads is captured if there is a label. -/
structure Hop (γ : Type) where
  group : γ
  label : Option Text
  next : Nat

/-- A place in the reading of patterns. -/
structure Node (γ ν : Type) where
  /-- Where a character leads. The first edge for it counts. -/
  edges : List (ClassItem × Nat)
  /-- In the order in which they are tried. -/
  hops : List (Hop γ)
  /-- The value of the patterns that end here. -/
  value : Option ν

/-- Nodes by number. Reading starts at node 0. -/
abbrev Graph (γ ν : Type) := Array (Node γ ν)

/-- A pattern that is read as one unit. -/
inductive Group where
  | mk (id : GroupId) (graph : Array (Node Group Unit))

namespace Group

def id : Group → GroupId
  | .mk id _ => id

def graph : Group → Graph Group Unit
  | .mk _ graph => graph

@[simp]
theorem graph_mk (id : GroupId) (graph : Graph Group Unit) : (Group.mk id graph).graph = graph :=
  rfl

def nullable (group : Group) : Bool :=
  (group.graph[0]?.bind Node.value).isSome

end Group

/-- Whether the hop goes through this group under this label. -/
def Hop.goesThrough (hop : Hop Group) (group : Group) (label : Option Text) : Bool :=
  hop.group.id == group.id && hop.label == label

namespace Node

variable {γ ν : Type}

def blank : Node γ ν := ⟨[], [], none⟩

def edge? (node : Node γ ν) (c : Char) : Option Nat :=
  (node.edges.find? (·.1.contains c)).map (·.2)

def hop? (node : Node Group ν) (group : Group) (label : Option Text) : Option Nat :=
  (node.hops.find? (·.goesThrough group label)).map (·.next)

@[simp]
theorem edge?_blank (c : Char) : (blank : Node γ ν).edge? c = none := rfl

end Node

def Graph.empty {γ ν : Type} : Graph γ ν := #[Node.blank]

end OpGrammar
