import JobGraph.Graph.Edges
import JobGraph.Graph.Layout
import JobGraph.Json.Basic

/-!
# Snapshots of layouts

What a view gets to see of a graph: nodes, layers, ranking and edges by their ids, payloads as JSON
and, if it asks for it, the dependency matrix.
-/

namespace JobGraph

/-- A node as views see it. -/
structure SnapshotNode where
  id : String
  isWaypoint : Bool
  index : Nat
  rank : Option Nat
  layer : Option Nat
  position : Position
  parentIds : List String
  /-- The payload of a real node. -/
  data : Option Json
  /-- The id of the dependent whose edge a waypoint bends. -/
  sourceId : Option String
  /-- The id of the parent to which that edge leads. -/
  targetId : Option String
  deriving DecidableEq

/-- An edge as views see it. -/
structure SnapshotEdge where
  dependentId : String
  parentId : String
  deriving DecidableEq

/-- A layout as views see it. -/
structure Snapshot where
  version : String
  /-- The real nodes, then the waypoints. -/
  nodes : List SnapshotNode
  layers : List (List String)
  ranking : List String
  edges : List SnapshotEdge
  matrix : Option DependencyMatrix
  deriving DecidableEq

namespace Snapshot

variable {α : Type}

/-- The version of the format. -/
def currentVersion : String := "1.0.0"

/-- One node of a graph as views see it. -/
def nodeOf (encode : α → Json) (g : Graph α) (node : Node α) : SnapshotNode :=
  { id := node.id
    isWaypoint := node.isWaypoint
    index := node.index
    rank := node.rank
    layer := node.layer
    position := node.position
    parentIds := node.parents.map g.idOf
    data := node.data?.map encode
    sourceId := node.ends?.map fun ends => g.idOf ends.1
    targetId := node.ends?.map fun ends => g.idOf ends.2 }

/-- The snapshot of a graph, with a dependency matrix if an indexing for it is given. -/
def ofGraph (encode : α → Json) (g : Graph α) (matrix : Option MatrixIndexing) : Snapshot :=
  { version := currentVersion
    nodes := ((g.realKeys ++ g.waypointKeys).filterMap g.node?).map (nodeOf encode g)
    layers := g.layers.map fun layer => layer.map g.idOf
    ranking := g.ranking.map g.idOf
    edges := g.edges.map fun edge => ⟨g.idOf edge.dependent, g.idOf edge.parent⟩
    matrix := matrix.map fun indexing => g.matrix (some indexing) }

section Failing

variable {Fault : Type}

/-- One node of a graph as views see it, unless its payload has no JSON. -/
def tryNodeOf (encode : α → Except Fault Json) (g : Graph α) (node : Node α) :
    Except Fault SnapshotNode := do
  let data ← node.data?.mapM encode
  .ok { nodeOf (fun _ => .null) g node with data }

/-- The snapshot of a graph whose payloads may have no JSON.  The first one that has none makes it
fail. -/
def tryOfGraph (encode : α → Except Fault Json) (g : Graph α) (matrix : Option MatrixIndexing) :
    Except Fault Snapshot := do
  let nodes ← ((g.realKeys ++ g.waypointKeys).filterMap g.node?).mapM (tryNodeOf encode g)
  .ok { ofGraph (fun _ => .null) g matrix with nodes }

end Failing

end Snapshot

end JobGraph
