import JobGraph.Text.Quoted

/-!
# Errors of graphs
-/

namespace JobGraph

/-- Why an operation on a graph fails. -/
inductive GraphError where
  /-- Cycles among the nodes with these ids. -/
  | cycle (ids : List String)
  | notSorted
  | invalidState (reason : String)
  deriving DecidableEq, Repr

namespace GraphError

/-- Ranks of a graph whose long edges were split cannot be computed anew. -/
def resort : GraphError :=
  .invalidState "cannot re-sort a graph after pseudo nodes were added"

/-- Long edges are split once only. -/
def routedTwice : GraphError :=
  .invalidState "pseudo nodes have already been added"

/-- The text of the error. -/
def message : GraphError → String
  | .cycle ids => "Cycle detected in graph involving nodes: " ++ Text.quotedList ids
  | .notSorted => "Graph has not been topologically sorted"
  | .invalidState reason => "Invalid graph state: " ++ reason

end GraphError

end JobGraph
