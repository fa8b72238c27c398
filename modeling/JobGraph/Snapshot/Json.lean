import JobGraph.Json.Decoding
import JobGraph.Json.Writing
import JobGraph.Snapshot.Basic

/-!
# Snapshots as JSON

A snapshot is an object whose members stand in a fixed order; a part that is absent is left out.
Reading takes the parts in any order and passes over names it does not know.
-/

namespace JobGraph

open Json (Document)

/-! ## Positions and matrices -/

/-- A position as an object of its two coordinates. -/
def Position.toJson (position : Position) : Json :=
  .object [("x", .double position.x), ("y", .double position.y)]

/-- Reads a position; a coordinate may be written as an integer. -/
def Position.decode? (document : Document) : Option Position := do
  match ← document.fields? ["x", "y"] with
  | [x, y] => some ⟨← Document.required Document.double? x, ← Document.required Document.double? y⟩
  | _ => none

/-- The name of an indexing. -/
def MatrixIndexing.name : MatrixIndexing → String
  | .rank => "topological"
  | .insertion => "insertion"

/-- The indexing of a name. -/
def MatrixIndexing.ofName? : String → Option MatrixIndexing
  | "topological" => some .rank
  | "insertion" => some .insertion
  | _ => none

/-- Reads the name of an indexing. -/
def MatrixIndexing.decode? (document : Document) : Option MatrixIndexing :=
  document.constant?.bind MatrixIndexing.ofName?

/-- A matrix as an object of its indexing and its rows. -/
def DependencyMatrix.toJson (matrix : DependencyMatrix) : Json :=
  .object
    [("indexing", .string matrix.indexing.name),
     ("rows", .array (matrix.rows.map fun row => .array (row.map Json.ofNat)))]

/-- Reads a matrix; its rows need not be equally long. -/
def DependencyMatrix.decode? (document : Document) : Option DependencyMatrix := do
  match ← document.fields? ["indexing", "rows"] with
  | [indexing, rows] =>
      some
        ⟨← Document.required MatrixIndexing.decode? indexing,
         ← Document.required (Document.list? (Document.list? Document.natural32?)) rows⟩
  | _ => none

/-! ## Nodes and edges -/

/-- The names of the parts of a node, in the order in which they are written. -/
def SnapshotNode.fieldNames : List String :=
  ["id", "pseudo", "index", "topologicalIndex", "topologicalGroupIndex", "position", "parentIds",
   "data", "sourceId", "targetId"]

/-- A node as an object. -/
def SnapshotNode.toJson (node : SnapshotNode) : Json :=
  .object
    ([("id", .string node.id), ("pseudo", .bool node.isWaypoint), ("index", .ofNat node.index)] ++
      Json.optional "topologicalIndex" Json.ofNat node.rank ++
      Json.optional "topologicalGroupIndex" Json.ofNat node.layer ++
      [("position", node.position.toJson), ("parentIds", .ofTexts node.parentIds)] ++
      Json.optional "data" (fun data => data) node.data ++
      Json.optional "sourceId" Json.string node.sourceId ++
      Json.optional "targetId" Json.string node.targetId)

/-- Reads a node. -/
def SnapshotNode.decode? (document : Document) : Option SnapshotNode := do
  match ← document.allFields? fieldNames with
  | [id, waypoint, index, rank, layer, position, parentIds, data, sourceId, targetId] =>
      some
        { id := ← Document.required Document.text? id
          isWaypoint := ← Document.required Document.bool? waypoint
          index := ← Document.required Document.natural64? index
          rank := ← Document.nullable Document.natural64? rank
          layer := ← Document.nullable Document.natural64? layer
          position := ← Document.required Position.decode? position
          parentIds := ← Document.required (Document.list? Document.text?) parentIds
          data := ← Document.nullable Document.value? data
          sourceId := ← Document.nullable Document.text? sourceId
          targetId := ← Document.nullable Document.text? targetId }
  | _ => none

/-- An edge as an object. -/
def SnapshotEdge.toJson (edge : SnapshotEdge) : Json :=
  .object [("from", .string edge.dependentId), ("to", .string edge.parentId)]

/-- Reads an edge. -/
def SnapshotEdge.decode? (document : Document) : Option SnapshotEdge := do
  match ← document.fields? ["from", "to"] with
  | [dependentId, parentId] =>
      some
        ⟨← Document.required Document.text? dependentId,
         ← Document.required Document.text? parentId⟩
  | _ => none

/-! ## Snapshots -/

namespace Snapshot

/-- The names of the parts of a snapshot, in the order in which they are written. -/
def fieldNames : List String :=
  ["version", "nodes", "groups", "ranked", "edges", "matrix"]

/-- A snapshot as an object. -/
def toJson (snapshot : Snapshot) : Json :=
  .object
    ([("version", .string snapshot.version),
      ("nodes", .array (snapshot.nodes.map SnapshotNode.toJson)),
      ("groups", .array (snapshot.layers.map Json.ofTexts)),
      ("ranked", .ofTexts snapshot.ranking),
      ("edges", .array (snapshot.edges.map SnapshotEdge.toJson))] ++
      Json.optional "matrix" DependencyMatrix.toJson snapshot.matrix)

/-- Reads a snapshot. -/
def decode? (document : Document) : Option Snapshot := do
  match ← document.allFields? fieldNames with
  | [version, nodes, layers, ranking, edges, matrix] =>
      some
        { version := ← Document.required Document.text? version
          nodes := ← Document.required (Document.list? SnapshotNode.decode?) nodes
          layers := ← Document.required (Document.list? (Document.list? Document.text?)) layers
          ranking := ← Document.required (Document.list? Document.text?) ranking
          edges := ← Document.required (Document.list? SnapshotEdge.decode?) edges
          matrix := ← Document.nullable DependencyMatrix.decode? matrix }
  | _ => none

/-- The compact text of a snapshot. -/
def compactText (snapshot : Snapshot) : String :=
  snapshot.toJson.compact

/-- The indented text of a snapshot. -/
def indentedText (snapshot : Snapshot) : String :=
  snapshot.toJson.indented

/-- The snapshot of a text. -/
def read? (text : String) : Option Snapshot :=
  (Document.read? text).bind decode?

end Snapshot

end JobGraph
