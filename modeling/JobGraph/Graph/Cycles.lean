import JobGraph.Graph.Basic

/-!
# Cycles

The nodes of a set that lie on a cycle inside the set.  A node lies on a cycle when it can be
reached from one of its parents along parents; an edge to itself is a cycle of its own.
-/

namespace JobGraph.Graph

variable {α : Type}

/-- Adds the parents, inside a set, of all nodes seen so far. -/
def expand (g : Graph α) (within seen : List NodeKey) : List NodeKey :=
  seen ++ ((seen.flatMap g.parentsOf).filter fun key =>
    within.contains key && !seen.contains key).eraseDups

/-- Expands a set of nodes a number of times. -/
def expandTimes (g : Graph α) (within : List NodeKey) : Nat → List NodeKey → List NodeKey
  | 0, seen => seen
  | times + 1, seen => expandTimes g within times (g.expand within seen)

/-- The nodes of a set that a path along parents of at least one edge reaches without leaving the
set.  No shortest path has more edges than the set has nodes. -/
def ancestors (g : Graph α) (within : List NodeKey) (key : NodeKey) : List NodeKey :=
  g.expandTimes within within.length
    ((g.parentsOf key).filter fun parent => within.contains parent).eraseDups

/-- Whether a node lies on a cycle inside a set. -/
def onCycle (g : Graph α) (within : List NodeKey) (key : NodeKey) : Bool :=
  (g.ancestors within key).contains key

/-- The ids of the nodes of a set that lie on a cycle inside it, or of the whole set if none
does. -/
def cycleIds (g : Graph α) (within : List NodeKey) : List String :=
  let members := within.filter (g.onCycle within)
  (if members.isEmpty then within else members).map g.idOf

end JobGraph.Graph
