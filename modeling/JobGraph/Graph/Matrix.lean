import JobGraph.Graph.Basic

/-!
# Dependency matrices

How many edges lead from each real node to each other one, waypoints passed over.
-/

namespace JobGraph

/-- What the rows and columns of a matrix are numbered by. -/
inductive MatrixIndexing where
  | rank
  /-- The order of creation. -/
  | insertion
  deriving DecidableEq, Repr, Inhabited

/-- A square matrix of edge counts. -/
structure DependencyMatrix where
  indexing : MatrixIndexing
  rows : List (List Nat)
  deriving DecidableEq, Repr

namespace DependencyMatrix

/-- The matrix of zeros. -/
def zero (indexing : MatrixIndexing) (size : Nat) : DependencyMatrix :=
  ⟨indexing, List.replicate size (List.replicate size 0)⟩

/-- The number of rows. -/
def size (matrix : DependencyMatrix) : Nat :=
  matrix.rows.length

/-- One row. -/
def row? (matrix : DependencyMatrix) (dependent : Nat) : Option (List Nat) :=
  matrix.rows[dependent]?

/-- One cell; outside the matrix there are no edges. -/
def get (matrix : DependencyMatrix) (dependent parent : Nat) : Nat :=
  ((matrix.row? dependent).bind fun row => row[parent]?).getD 0

/-- The sum of all cells. -/
def total (matrix : DependencyMatrix) : Nat :=
  matrix.rows.flatten.foldr (· + ·) 0

/-- Counts one more edge. -/
def count (matrix : DependencyMatrix) (edge : Nat × Nat) : DependencyMatrix :=
  { matrix with rows := matrix.rows.modify edge.1 fun row => row.modify edge.2 (· + 1) }

end DependencyMatrix

namespace Graph

variable {α : Type}

/-- The real node at the end of a chain of waypoints, each followed to its first parent.  A chain
that never ends leads nowhere; one that ends has fewer waypoints than the graph has nodes. -/
def resolveFrom (g : Graph α) : Nat → NodeKey → Option NodeKey
  | 0, _ => none
  | fuel + 1, key =>
      if g.isWaypoint key then (g.parentsOf key).head?.bind (resolveFrom g fuel) else some key

/-- The real node that an edge to this node leads to. -/
def resolve (g : Graph α) (key : NodeKey) : Option NodeKey :=
  g.resolveFrom (g.nodes.size + 1) key

/-- The number of a real node in a matrix. -/
def matrixPlace (g : Graph α) (indexing : MatrixIndexing) (key : NodeKey) : Option Nat :=
  match indexing with
  | .rank => g.rankOf key
  | .insertion => (g.node? key).map Node.index

/-- The edges of one real node as cells of a matrix. -/
def matrixCells (g : Graph α) (indexing : MatrixIndexing) (key : NodeKey) : List (Nat × Nat) :=
  match g.matrixPlace indexing key with
  | none => []
  | some dependent =>
      (g.parentsOf key).filterMap fun parent => do
        let target ← g.resolve parent
        let place ← g.matrixPlace indexing target
        some (dependent, place)

/-- The indexing that is taken when none is asked for. -/
def defaultIndexing (g : Graph α) : MatrixIndexing :=
  if g.sorted then .rank else .insertion

/-- The dependency matrix of the real nodes. -/
def matrix (g : Graph α) (indexing : Option MatrixIndexing) : DependencyMatrix :=
  let indexing := indexing.getD g.defaultIndexing
  (g.realKeys.flatMap (g.matrixCells indexing)).foldl DependencyMatrix.count
    (.zero indexing g.realKeys.length)

end Graph

end JobGraph
