import JobGraph.Proofs.Graph.Coherence
import JobGraph.Proofs.Graph.Contraction
import JobGraph.Proofs.Graph.Matrix

/-!
# How large the numbers of a graph get

The places, ranks and layers that a graph keeps with its nodes are all below the number of its
nodes, whatever operations it went through, and a cell of a matrix never exceeds the number of
edges.  So they fit wherever the nodes and edges can be counted.
-/

namespace JobGraph.Graph

variable {α : Type} {g : Graph α}

/-! ## Places and ranks -/

theorem Linked.length_realKeys_le (h : Linked g) : g.realKeys.length ≤ g.nodes.size := by
  rw [h.realKeys_eq]
  exact (List.length_filter_le _ _).trans_eq List.length_range

theorem Linked.length_waypointKeys_le (h : Linked g) : g.waypointKeys.length ≤ g.nodes.size := by
  rw [h.waypointKeys_eq]
  exact (List.length_filter_le _ _).trans_eq List.length_range

theorem Reachable.index_lt (h : Reachable g) {key : NodeKey} {node : Node α}
    (hnode : g.node? key = some node) : node.index < g.nodes.size := by
  have hplace := (List.getElem?_eq_some_iff.1 (h.coherent.getElem?_index key node hnode)).1
  refine hplace.trans_le ?_
  split
  · exact h.consistent.toLinked.length_waypointKeys_le
  · exact h.consistent.toLinked.length_realKeys_le

/-- A rank counts placed nodes, which are real. -/
theorem Reachable.rank_lt_length_realKeys (h : Reachable g) {key : NodeKey} {rank : Nat}
    (hrank : g.rankOf key = some rank) : rank < g.realKeys.length := by
  have hplace := (h.consistent.rankOf_iff key rank).1 hrank
  calc rank
      _ < g.ranking.length := (List.getElem?_eq_some_iff.1 hplace).1
      _ ≤ g.realKeys.length := h.consistent.nodup_ranking.length_le_of_subset
        (invariant_ranking_subset_realKeys.holds h)

theorem Reachable.rank_lt (h : Reachable g) {key : NodeKey} {rank : Nat}
    (hrank : g.rankOf key = some rank) : rank < g.nodes.size :=
  (h.rank_lt_length_realKeys hrank).trans_le h.consistent.toLinked.length_realKeys_le

/-- The number of a real node in a matrix is that of a row. -/
theorem Reachable.matrixPlace_lt (h : Reachable g) {key : NodeKey}
    (hreal : g.isWaypoint key = false) {indexing : MatrixIndexing} {place : Nat}
    (hplace : g.matrixPlace indexing key = some place) : place < g.realKeys.length := by
  cases indexing with
  | rank => exact h.rank_lt_length_realKeys hplace
  | insertion =>
      obtain ⟨node, hnode, rfl⟩ := Option.map_eq_some_iff.1 hplace
      have hindex := h.coherent.getElem?_index key node hnode
      rw [isWaypoint, hnode, Option.elim_some] at hreal
      rw [hreal, if_neg Bool.false_ne_true] at hindex
      exact (List.getElem?_eq_some_iff.1 hindex).1

/-! ## Layers -/

theorem length_frontiersFrom_le (g : Graph α) (fuel : Nat) (pending : Pending)
    (frontier : List NodeKey) : (g.frontiersFrom fuel pending frontier).length ≤ fuel := by
  induction fuel generalizing pending frontier with
  | zero => exact Nat.zero_le _
  | succ fuel ih =>
      rw [frontiersFrom]
      split
      · exact Nat.zero_le _
      · exact Nat.succ_le_succ (ih _ _)

/-- Compaction leaves no layer out and adds none. -/
theorem length_layers_compact (g : Graph α) : g.compact.1.layers.length = g.layers.length := by
  refine List.foldlRecOn
    (motive := fun state : Graph α × Nat => state.1.layers.length = g.layers.length) _ _ rfl
    fun state hstate key _ => ?_
  rw [lift]
  split
  · exact hstate
  · exact (length_layers_moveToLayer state.1 key _ _).trans hstate

/-- There are no more layers than nodes. -/
theorem invariant_length_layers_le : Invariant fun g : Graph α => g.layers.length ≤ g.nodes.size where
  empty := Nat.zero_le _
  addNode g id data h := by
    rw [show (g.addNode id data).nodes.size = g.nodes.size + 1 from Array.size_push _]
    exact Nat.le_succ_of_le h
  addEdge g dependent parent h := by
    rwa [(fields_addEdge g dependent parent).2.2.2.2, nodes_size_addEdge]
  removeEdge g dependent parent h := by
    rwa [(fields_removeEdge g dependent parent).2.2.2.2, nodes_size_removeEdge]
  setData g key data h := by
    rwa [setData, nodes_size_modifyNode]
  setPosition g key position h := by
    rwa [setPosition, nodes_size_modifyNode]
  assignLayers g policy hconsistent h := by
    rw [size_of_clearLayout_eq (clearLayout_assignLayers hconsistent.toLinked policy)]
    cases hrouted : g.routed with
    | true => rwa [assignLayers, if_pos hrouted]
    | false =>
        rw [assignLayers_of_unrouted hrouted]
        split
        · exact Nat.zero_le _
        · refine (length_layers_compact g.levelled).trans_le ?_
          refine (length_frontiersFrom_le g.clearLayout _ _ _).trans_eq ?_
          exact clearLayout_size g
  orderLayers g sweeps h := by
    obtain ⟨layers, heq, hreordered⟩ := g.orderLayers_fst sweeps
    rw [heq]
    exact hreordered.length_eq.trans_le h
  markRouted _ h := h
  withWaypoint g base source target layer h := by
    rw [nodes_size_withWaypoint]
    refine Nat.le_succ_of_le ?_
    rwa [withWaypoint, List.length_modify]

theorem Reachable.layer_lt (h : Reachable g) {key : NodeKey} {layer : Nat}
    (hlayer : g.layerOf key = some layer) : layer < g.nodes.size :=
  (h.consistent.toPlaced.lt_length_of_layerOf hlayer).trans_le (invariant_length_layers_le.holds h)

/-! ## Cells -/

/-- A cell counts some of the edges. -/
theorem Linked.cell_le_edgeCount (h : Linked g) {indexing : Option MatrixIndexing} {row : List Nat}
    (hrow : row ∈ (g.matrix indexing).rows) {cell : Nat} (hcell : cell ∈ row) :
    cell ≤ g.edgeCount := by
  rw [matrix_eq_tally h] at hrow
  obtain ⟨i, -, rfl⟩ := List.mem_map.1 hrow
  obtain ⟨j, -, rfl⟩ := List.mem_map.1 hcell
  calc (g.straightEdges.filterMap (g.cellOf (indexing.getD g.defaultIndexing))).count (i, j)
      _ ≤ (g.straightEdges.filterMap (g.cellOf (indexing.getD g.defaultIndexing))).length :=
        List.count_le_length
      _ ≤ g.straightEdges.length := List.length_filterMap_le _ _
      _ ≤ g.edges.length := List.length_filterMap_le _ _

end JobGraph.Graph
