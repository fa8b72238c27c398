import JobGraph.Graph.Cycles
import JobGraph.Graph.Error

/-!
# Layering

Placing the nodes of a graph in layers, so that every node stands above the nodes it depends on.

* **Frontiers.**  The first frontier are the nodes without parents, in the order of their creation.
  The next one are the nodes whose last parent stands in the frontier before, in the order in which
  they are released: by that parent, then by its list of children.  The ranking is the frontiers one
  after the other.
* **Compaction.**  From the last rank down, every node moves up to the layer just below its lowest
  child, so that it stands close to the nodes depending on it.
* **Leftovers.**  Nodes on a cycle and nodes depending on one are never released.  A strict layering
  fails on them, a lenient one leaves them out.
-/

namespace JobGraph

/-- What a layering does with nodes on a cycle and nodes depending on one. -/
inductive CyclePolicy where
  /-- Leaves them out. -/
  | lenient
  /-- Fails. -/
  | strict
  deriving DecidableEq, Repr, Inhabited

/-- What a layering did. -/
structure LayeringReport where
  layerCount : Nat
  /-- The number of nodes that compaction moved. -/
  moved : Nat
  /-- The ids of the nodes left out. -/
  excluded : List String
  deriving DecidableEq, Repr

/-- Whether every node was placed. -/
def LayeringReport.isComplete (report : LayeringReport) : Bool :=
  report.excluded.isEmpty

namespace Graph

variable {α : Type}

/-! ## Frontiers -/

/-- How many edges to parents that are not placed yet each node has. -/
abbrev Pending := Array Nat

/-- The edges of each node before any is placed. -/
def initialPending (g : Graph α) : Pending :=
  g.nodes.map fun node => node.parents.length

/-- One edge of a child leads to a node that was placed just now; the last such edge releases the
child. -/
def release (state : Pending × List NodeKey) (child : NodeKey) : Pending × List NodeKey :=
  (state.1.modify child (· - 1),
    if state.1[child]? = some 1 then state.2 ++ [child] else state.2)

/-- What is pending after a frontier was placed, and the nodes it releases. -/
def releaseFrontier (g : Graph α) (pending : Pending) (frontier : List NodeKey) :
    Pending × List NodeKey :=
  (frontier.flatMap g.childrenOf).foldl release (pending, [])

/-- The frontiers from one on.  The fuel bounds their number. -/
def frontiersFrom (g : Graph α) : Nat → Pending → List NodeKey → List (List NodeKey)
  | 0, _, _ => []
  | fuel + 1, pending, frontier =>
      if frontier.isEmpty then []
      else
        let (pending, next) := g.releaseFrontier pending frontier
        frontier :: frontiersFrom g fuel pending next

/-- The nodes without parents. -/
def roots (g : Graph α) : List NodeKey :=
  g.realKeys.filter fun key => (g.parentsOf key).isEmpty

/-- All frontiers.  None is empty and no node stands in two, so there are no more of them than
nodes. -/
def frontiers (g : Graph α) : List (List NodeKey) :=
  g.frontiersFrom g.nodes.size g.initialPending g.roots

/-- The graph with a layer for each frontier. -/
def placeFrontiers (g : Graph α) (frontiers : List (List NodeKey)) : Graph α :=
  let ranking := frontiers.flatten
  { g with
    nodes := g.nodes.mapIdx fun key node =>
      { node with
        rank := ranking.idxOf? key
        layer := frontiers.findIdx? fun frontier => frontier.contains key }
    layers := frontiers
    ranking }

/-! ## Compaction -/

/-- The lowest layer of the children of a node. -/
def lowestChildLayer (g : Graph α) (key : NodeKey) : Option Nat :=
  ((g.childrenOf key).filterMap g.layerOf).min?

/-- Moves a node from one layer to the end of another. -/
def moveToLayer (g : Graph α) (key : NodeKey) (current target : Nat) : Graph α :=
  { g.modifyNode key fun node => { node with layer := some target } with
    layers := (g.layers.modify current fun layer => layer.filter fun other => other ≠ key).modify
      target fun layer => layer ++ [key] }

/-- The layer a node is to be lifted to, if it stands lower. -/
def liftTarget? (g : Graph α) (key : NodeKey) : Option (Nat × Nat) := do
  let current ← g.layerOf key
  let lowest ← g.lowestChildLayer key
  if current < lowest - 1 then some (current, lowest - 1) else none

/-- Lifts a node to just below its lowest child, and counts it if it moves. -/
def lift (state : Graph α × Nat) (key : NodeKey) : Graph α × Nat :=
  match state.1.liftTarget? key with
  | none => state
  | some (current, target) => (state.1.moveToLayer key current target, state.2 + 1)

/-- Lifts all placed nodes, the last rank first: when a node is lifted, its children stand where
they stay. -/
def compact (g : Graph α) : Graph α × Nat :=
  g.ranking.reverse.foldl lift (g, 0)

/-! ## Layering -/

/-- The real nodes without a rank, in the order of their creation. -/
def unplaced (g : Graph α) : List NodeKey :=
  g.realKeys.filter fun key => (g.rankOf key).isNone

/-- Computes ranks and layers from scratch.  A graph whose long edges were split stays as it is; a
strict layering that finds a cycle leaves the graph without a layout. -/
def assignLayers (g : Graph α) (policy : CyclePolicy) :
    Graph α × Except GraphError LayeringReport :=
  if g.routed then (g, .error .resort)
  else
    let bare := g.clearLayout
    let placed := bare.placeFrontiers bare.frontiers
    let leftOver := placed.unplaced
    if policy = .strict ∧ leftOver ≠ [] then
      (bare, .error (.cycle (placed.cycleIds leftOver)))
    else
      let (compacted, moved) := placed.compact
      ({ compacted with sorted := true },
        .ok ⟨compacted.layers.length, moved, leftOver.map g.idOf⟩)

end Graph

end JobGraph
