import JobGraph.Graph.Basic

/-!
# Edges

Edges are kept as a list of parents at the dependent and a list of children at the parent; between
two nodes there may be several.  Each node also keeps its neighbours by id.  An id that several
neighbours share names the one whose edge was added last, and nobody once the last edge to a
neighbour of that id is gone.
-/

namespace JobGraph.Graph

variable {α : Type}

/-- Adds an edge from a node to a node it depends on. -/
def addEdge (g : Graph α) (dependent parent : NodeKey) : Graph α :=
  if g.has dependent && g.has parent then
    let dependentId := g.idOf dependent
    let parentId := g.idOf parent
    let g := g.modifyNode dependent fun node =>
      { node with
        parents := node.parents ++ [parent]
        parentIndex := node.parentIndex.insert parentId parent }
    g.modifyNode parent fun node =>
      { node with
        children := node.children ++ [dependent]
        childIndex := node.childIndex.insert dependentId dependent }
  else g

/-- Whether a node depends on another one directly. -/
def hasEdge (g : Graph α) (dependent parent : NodeKey) : Bool :=
  (g.parentsOf dependent).contains parent

/-- An index after one edge to a node of that id is gone, given the neighbours left. -/
def forgetNeighbour (index : IdIndex) (left : List NodeKey) (id : String) (key : NodeKey) :
    IdIndex :=
  if left.contains key then index else index.erase id

/-- Removes one edge, the first of several; nothing changes when there is none. -/
def removeEdge (g : Graph α) (dependent parent : NodeKey) : Graph α :=
  if g.hasEdge dependent parent then
    let dependentId := g.idOf dependent
    let parentId := g.idOf parent
    let g := g.modifyNode dependent fun node =>
      let left := node.parents.erase parent
      { node with
        parents := left
        parentIndex := forgetNeighbour node.parentIndex left parentId parent }
    g.modifyNode parent fun node =>
      let left := node.children.erase dependent
      { node with
        children := left
        childIndex := forgetNeighbour node.childIndex left dependentId dependent }
  else g

/-- An edge from a dependent node to its parent. -/
structure Edge where
  dependent : NodeKey
  parent : NodeKey
  deriving DecidableEq, Repr

/-- Whether a node depends on itself. -/
def Edge.isLoop (edge : Edge) : Bool :=
  edge.dependent == edge.parent

/-- All keys of the graph. -/
def keys (g : Graph α) : List NodeKey :=
  List.range g.nodes.size

/-- All edges, by dependent and in the order of its parents. -/
def edges (g : Graph α) : List Edge :=
  g.keys.flatMap fun key => (g.parentsOf key).map fun parent => ⟨key, parent⟩

/-- The number of edges. -/
def edgeCount (g : Graph α) : Nat :=
  g.edges.length

/-! ## Graphs of records -/

/-- Adds an edge to each parent that has a node, in the order of the ids. -/
def addEdgesTo (g : Graph α) (dependent : NodeKey) (parentIds : List String) : Graph α :=
  parentIds.foldl (fun g id =>
    match g.find? id with
    | some parent => g.addEdge dependent parent
    | none => g) g

/-- The graph of a list of records: a node for each, and an edge to each parent that some record
names by its id.  Of several records with one id the last one is meant. -/
def ofRecords (id : α → String) (parentIds : α → List String) (records : List α) : Graph α :=
  let bare := records.foldl (fun g record => g.addNode (id record) record) empty
  records.zipIdx.foldl (fun g numbered => g.addEdgesTo numbered.2 (parentIds numbered.1)) bare

end JobGraph.Graph
