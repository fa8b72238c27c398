import JobGraph.Proofs.Graph.GuardedEdges
import JobGraph.Proofs.Graph.Ordering

/-!
# Guarded ordering

Counting crossings and ordering layers ask for the places of nodes: of those on a layer and of those
of their parents that stand one layer below.  In a placed graph every node with a layer has a place,
and this is all that is needed.  Layers are counted from the second up, so that there is one below.
-/

namespace JobGraph.Graph

variable {α : Type} {g : Graph α}

/-! ## Crossings -/

/-- A node on a layer has a place. -/
theorem Placed.placeIn_eq (h : Placed g) {key : NodeKey} {layer : Nat}
    (hlayer : g.layerOf key = some layer) :
    placeIn g.layers key = some ((placeIn g.layers key).getD 0) := by
  obtain ⟨keys, hkeys, hkey⟩ := (h.layerOf_iff key layer).1 hlayer
  have hsome : (placeIn g.layers key).isSome := by
    rw [placeIn, List.findSome?_isSome_iff]
    exact ⟨keys, List.mem_of_getElem? hkeys, by simpa using hkey⟩
  obtain ⟨place, hplace⟩ := Option.isSome_iff_exists.1 hsome
  rw [hplace, Option.getD_some]

section Crossings

variable (h : Consistent g)

include h

end Crossings

/-! ## Sweeps -/

section Sweeps

variable (h : Placed g) {layers : List (List NodeKey)} (hlayers : Reordered g.layers layers)

include h hlayers

end Sweeps

end JobGraph.Graph
