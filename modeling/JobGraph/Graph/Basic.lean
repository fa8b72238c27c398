import JobGraph.Graph.IdIndex

/-!
# Graphs of dependencies

A graph owns its nodes and never drops one; a node is named by its key, its place in the order of
creation.  An edge leads from a node to a node it depends on, its parent, and is kept at both ends.
Real nodes carry a payload.  Waypoints are the bends of an edge that is drawn across several layers.

A graph may carry a layout: a rank for each placed node and layers of nodes, the lowest first.
-/

namespace JobGraph

/-- Where a view draws a node. -/
structure Position where
  x : Float
  y : Float
  deriving DecidableEq, Inhabited

/-- The corner of the drawing, where every node starts. -/
def Position.origin : Position :=
  ⟨0, 0⟩

/-- What a node stands for. -/
inductive NodeKind (α : Type) where
  | real (data : α)
  /-- A bend of the edge from the dependent `source` to its parent `target`. -/
  | waypoint (source target : NodeKey)
  deriving Inhabited

/-- A node of a graph. -/
structure Node (α : Type) where
  id : String
  kind : NodeKind α
  /-- The place among the nodes of its kind. -/
  index : Nat
  /-- The place in the ranking, for a placed real node. -/
  rank : Option Nat
  layer : Option Nat
  /-- The nodes it depends on, once per edge. -/
  parents : List NodeKey
  parentIndex : IdIndex
  /-- The nodes depending on it, once per edge. -/
  children : List NodeKey
  childIndex : IdIndex
  position : Position
  deriving Inhabited

namespace Node

variable {α : Type}

/-- A node without edges and without a place. -/
def new (id : String) (kind : NodeKind α) (index : Nat) : Node α :=
  { id, kind, index, rank := none, layer := none, parents := [], parentIndex := .empty,
    children := [], childIndex := .empty, position := .origin }

/-- The payload of a real node. -/
def data? (node : Node α) : Option α :=
  match node.kind with
  | .real data => some data
  | .waypoint _ _ => none

/-- The two real ends of the edge that a waypoint bends. -/
def ends? (node : Node α) : Option (NodeKey × NodeKey) :=
  match node.kind with
  | .real _ => none
  | .waypoint source target => some (source, target)

/-- Whether the node is a waypoint. -/
def isWaypoint (node : Node α) : Bool :=
  node.ends?.isSome

/-- The parent that the node knows by an id. -/
def parentById? (node : Node α) (id : String) : Option NodeKey :=
  node.parentIndex.get? id

/-- The child that the node knows by an id. -/
def childById? (node : Node α) (id : String) : Option NodeKey :=
  node.childIndex.get? id

end Node

/-- A graph with its layout. -/
structure Graph (α : Type) where
  nodes : Array (Node α)
  /-- The real nodes in the order of their creation. -/
  realKeys : List NodeKey
  /-- The waypoints in the order of their creation. -/
  waypointKeys : List NodeKey
  /-- Of several nodes with one id, the latest. -/
  idIndex : IdIndex
  /-- The lowest layer first. -/
  layers : List (List NodeKey)
  /-- The placed real nodes by rank. -/
  ranking : List NodeKey
  sorted : Bool
  /-- Whether long edges were split. -/
  routed : Bool
  deriving Inhabited

namespace Graph

variable {α : Type}

/-- The graph without nodes. -/
def empty : Graph α :=
  { nodes := #[], realKeys := [], waypointKeys := [], idIndex := .empty, layers := [],
    ranking := [], sorted := false, routed := false }

/-! ## Reading -/

/-- The node of a key. -/
def node? (g : Graph α) (key : NodeKey) : Option (Node α) :=
  g.nodes[key]?

/-- Whether a key names a node of the graph. -/
def has (g : Graph α) (key : NodeKey) : Bool :=
  key < g.nodes.size

/-- The latest node with an id. -/
def find? (g : Graph α) (id : String) : Option NodeKey :=
  g.idIndex.get? id

/-- The id of a node. -/
def idOf (g : Graph α) (key : NodeKey) : String :=
  (g.node? key).elim "" Node.id

/-- The parents of a node, once per edge. -/
def parentsOf (g : Graph α) (key : NodeKey) : List NodeKey :=
  (g.node? key).elim [] Node.parents

/-- The children of a node, once per edge. -/
def childrenOf (g : Graph α) (key : NodeKey) : List NodeKey :=
  (g.node? key).elim [] Node.children

/-- The rank of a node. -/
def rankOf (g : Graph α) (key : NodeKey) : Option Nat :=
  (g.node? key).bind Node.rank

/-- The layer of a node. -/
def layerOf (g : Graph α) (key : NodeKey) : Option Nat :=
  (g.node? key).bind Node.layer

/-- The payload of a real node. -/
def data? (g : Graph α) (key : NodeKey) : Option α :=
  (g.node? key).bind Node.data?

/-- Whether a key names a waypoint. -/
def isWaypoint (g : Graph α) (key : NodeKey) : Bool :=
  (g.node? key).elim false Node.isWaypoint

/-- The payload of the dependent whose edge a waypoint bends. -/
def sourceData? (g : Graph α) (key : NodeKey) : Option α := do
  let node ← g.node? key
  let (source, _) ← node.ends?
  g.data? source

/-- The payload of the parent to which the edge of a waypoint leads. -/
def targetData? (g : Graph α) (key : NodeKey) : Option α := do
  let node ← g.node? key
  let (_, target) ← node.ends?
  g.data? target

/-! ## Adding and changing nodes -/

/-- Changes one node; a key without a node changes nothing. -/
def modifyNode (g : Graph α) (key : NodeKey) (change : Node α → Node α) : Graph α :=
  { g with nodes := g.nodes.modify key change }

/-- The key of the next node. -/
def nextKey (g : Graph α) : NodeKey :=
  g.nodes.size

/-- Adds a real node. -/
def addNode (g : Graph α) (id : String) (data : α) : Graph α :=
  { g with
    nodes := g.nodes.push (Node.new id (.real data) g.realKeys.length)
    realKeys := g.realKeys ++ [g.nextKey]
    idIndex := g.idIndex.insert id g.nextKey }

/-- Adds a waypoint on the edge from `source` to `target`. -/
def addWaypoint (g : Graph α) (id : String) (source target : NodeKey) : Graph α :=
  { g with
    nodes := g.nodes.push (Node.new id (.waypoint source target) g.waypointKeys.length)
    waypointKeys := g.waypointKeys ++ [g.nextKey]
    idIndex := g.idIndex.insert id g.nextKey }

/-- Replaces the payload of a real node. -/
def setData (g : Graph α) (key : NodeKey) (data : α) : Graph α :=
  g.modifyNode key fun node =>
    match node.kind with
    | .real _ => { node with kind := .real data }
    | .waypoint _ _ => node

/-- Changes the payload of a real node. -/
def modifyData (g : Graph α) (key : NodeKey) (change : α → α) : Graph α :=
  match g.data? key with
  | none => g
  | some data => g.setData key (change data)

/-- Sets where a view draws a node. -/
def setPosition (g : Graph α) (key : NodeKey) (position : Position) : Graph α :=
  g.modifyNode key fun node => { node with position }

/-! ## Layout state -/

/-- The graph without ranks, layers and the mark that it is sorted. -/
def clearLayout (g : Graph α) : Graph α :=
  { g with
    nodes := g.nodes.map fun node => { node with rank := none, layer := none }
    layers := []
    ranking := []
    sorted := false }

@[simp]
theorem clearLayout_size (g : Graph α) : g.clearLayout.nodes.size = g.nodes.size := by
  simp [clearLayout]

@[simp]
theorem rankOf_clearLayout (g : Graph α) (key : NodeKey) : g.clearLayout.rankOf key = none := by
  simp [clearLayout, rankOf, node?, Option.bind_eq_none_iff]

@[simp]
theorem layerOf_clearLayout (g : Graph α) (key : NodeKey) : g.clearLayout.layerOf key = none := by
  simp [clearLayout, layerOf, node?, Option.bind_eq_none_iff]

end Graph

end JobGraph
