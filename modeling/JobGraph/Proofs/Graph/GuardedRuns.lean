import JobGraph.Proofs.Graph.GuardedLayering
import JobGraph.Proofs.Graph.GuardedMatrix
import JobGraph.Proofs.Graph.GuardedOrdering
import JobGraph.Proofs.Graph.GuardedRouting

/-!
# Nothing is ever missing

A graph is built from records and goes through any operations, of which those that name the ends of an
edge name nodes that are there.  Then every guarded operation does what the operation does: no node,
layer, place or cell is missing, and nothing is taken from zero, however stale the layout is.  The
crossings can be counted at any time, and so can a matrix unless a walk along waypoints goes round in
circles.

What is counted is not bounded here.  A cell of a matrix counts no more than all edges.
-/

namespace JobGraph.Graph

variable {α : Type} {g : Graph α}

/-! ## Guarded operations -/

/-- The nodes between which an operation adds or removes an edge are there. -/
def Operation.EndsThere (g : Graph α) : Operation α → Prop
  | .addEdge dependent parent => dependent < g.nodes.size ∧ parent < g.nodes.size
  | .removeEdge dependent parent => dependent < g.nodes.size ∧ parent < g.nodes.size
  | _ => True

/-- The ends of edges are there when an operation names them. -/
def EndsThere (g : Graph α) : List (Operation α) → Prop
  | [] => True
  | operation :: rest => operation.EndsThere g ∧ EndsThere (g.perform operation) rest

instance (g : Graph α) (operation : Operation α) : Decidable (operation.EndsThere g) :=
  match operation with
  | .addEdge _ _ | .removeEdge _ _ => inferInstanceAs (Decidable (_ ∧ _))
  | .addNode _ _ | .setData _ _ | .setPosition _ _ | .assignLayers _ | .routeLongEdges
  | .orderLayers _ | .layOut _ => inferInstanceAs (Decidable True)

instance decidableEndsThere : ∀ (g : Graph α) (operations : List (Operation α)),
    Decidable (EndsThere g operations)
  | _, [] => inferInstanceAs (Decidable True)
  | g, operation :: rest =>
      have := decidableEndsThere (g.perform operation) rest
      inferInstanceAs (Decidable (_ ∧ _))

/-! ## Runs -/

theorem Reachable.idsBounded (h : Reachable g) : IdsBounded g :=
  (Catalogued.invariant.holds h).idsBounded

end JobGraph.Graph
