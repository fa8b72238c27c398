import JobGraph.Proofs.Graph.FreeIds
import JobGraph.Proofs.Graph.GuardedEdges

/-!
# Guarded routing

A routing of a consistent graph finds every node and every layer it asks for, and a free id for each
waypoint.  The loop carries `Underway`: the graph stays consistent, so that a node stands on a layer
that there is and waypoints go below it, and it loses neither nodes nor layers, so that what is taken
from a list which has changed since still names nodes.

Nothing is asked of the edges: after edges were edited, the layout may well say of a parent that it
stands above its dependents.
-/

namespace JobGraph.Graph

variable {α : Type} {g g' g'' : Graph α}

/-! ## Guarded steps -/

/-- A routing that was at `g` has come to `g'`. -/
structure Underway (g g' : Graph α) : Prop where
  consistent : Consistent g'
  routed : g'.routed = true
  idsBounded : IdsBounded g'
  size_le : g.nodes.size ≤ g'.nodes.size
  length_layers : g'.layers.length = g.layers.length

namespace Underway

theorem trans (h : Underway g g') (h' : Underway g' g'') : Underway g g'' :=
  ⟨h'.consistent, h'.routed, h'.idsBounded, h.size_le.trans h'.size_le,
    h'.length_layers.trans h.length_layers⟩

theorem refl (h : Underway g g') : Underway g' g' :=
  ⟨h.consistent, h.routed, h.idsBounded, le_rfl, rfl⟩

theorem of_grown (h : Underway g g') {added : List NodeKey} (hgrown : Grown g' g'' added)
    (hconsistent : Consistent g'') (hnames : NamesKept g' g'') : Underway g g'' :=
  h.trans ⟨hconsistent, hgrown.routed_eq.trans h.routed, hnames.idsBounded h.idsBounded,
    hgrown.size_le, hgrown.length_layers⟩

theorem addEdge (h : Underway g g') (dependent parent : NodeKey) :
    Underway g (g'.addEdge dependent parent) :=
  h.of_grown (grown_addEdge g' dependent parent) (h.consistent.addEdge dependent parent)
    (namesKept_addEdge g' dependent parent)

theorem removeEdge (h : Underway g g') (dependent parent : NodeKey) :
    Underway g (g'.removeEdge dependent parent) :=
  h.of_grown (grown_removeEdge g' dependent parent) (h.consistent.removeEdge dependent parent)
    (namesKept_removeEdge g' dependent parent)

end Underway

/-! ## One edge -/

section Edge

variable {source target : NodeKey} (hsource : source < g.nodes.size)
  (htarget : target < g.nodes.size)

include hsource htarget

end Edge

/-! ## All edges -/

end JobGraph.Graph
