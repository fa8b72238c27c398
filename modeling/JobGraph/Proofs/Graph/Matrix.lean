import JobGraph.Proofs.Graph.Contraction
import JobGraph.Proofs.Graph.Layouts
import JobGraph.Proofs.Graph.Numbering

/-!
# Matrices of laid out graphs

A matrix holds how many edges lead from each real node to each other one, those that were split
included.

* **Counts.**  Before a graph is routed all its edges are straight, and no two nodes share a number,
  so that each cell counts the edges between two nodes.
* **Routing.**  A routed graph has the straightened edges and the numbers that it had before, and
  what comes after the routing without an edit leaves both alone.
-/

namespace JobGraph.Graph

open scoped List

variable {α : Type} {g g' : Graph α}

/-! ## Counting the edges of a graph -/

/-- The place of a node in a matrix: its rank, or its place among the real nodes. -/
def StandsAt (g : Graph α) (indexing : MatrixIndexing) (key : NodeKey) (place : Nat) : Prop :=
  match indexing with
  | .rank => g.rankOf key = some place
  | .insertion => g.realKeys[place]? = some key

/-- The matrix holds how many edges lead from each node to each other one.  Counting by rank leaves
out the edges with an end that has no rank, and only these. -/
structure CountsEdges (g : Graph α) (matrix : DependencyMatrix) : Prop where
  size_eq : matrix.size = g.realKeys.length
  length_row : ∀ row ∈ matrix.rows, row.length = g.realKeys.length
  eq_of_standsAt : ∀ u v place, g.StandsAt matrix.indexing u place →
    g.StandsAt matrix.indexing v place → u = v
  get_eq : ∀ u v i j, g.StandsAt matrix.indexing u i → g.StandsAt matrix.indexing v j →
    matrix.get i j = g.edges.count ⟨u, v⟩
  get_eq_zero : ∀ i j, (∀ u, ¬ g.StandsAt matrix.indexing u i) ∨
    (∀ v, ¬ g.StandsAt matrix.indexing v j) → matrix.get i j = 0
  total_by_rank : matrix.indexing = .rank → matrix.total = g.edges.countP fun edge =>
    (g.rankOf edge.dependent).isSome ∧ (g.rankOf edge.parent).isSome
  total_by_insertion : matrix.indexing = .insertion → matrix.total = g.edgeCount

theorem Placed.nodup_ranking (h : Placed g) : g.ranking.Nodup := by
  rw [List.nodup_iff_getElem?_ne_getElem?]
  intro i j hij hj heq
  have hi := List.getElem?_eq_getElem (hij.trans hj)
  have hrank := (h.rankOf_iff _ i).2 hi
  rw [(h.rankOf_iff _ j).2 (heq ▸ hi), Option.some.injEq] at hrank
  omega

section Unrouted

variable (h : Reachable g) (hunrouted : g.routed = false) (indexing : MatrixIndexing)

include h hunrouted

theorem standsAt_iff (key : NodeKey) (place : Nat) :
    g.StandsAt indexing key place ↔ g.matrixPlace indexing key = some place := by
  cases indexing with
  | rank => exact Iff.rfl
  | insertion =>
      have hplace : (List.range g.nodes.size)[place]? = some key ↔
          key < g.nodes.size ∧ key = place := by
        rw [List.getElem?_eq_some_iff]
        simp only [List.length_range, List.getElem_range, exists_prop]
        constructor
        · rintro ⟨hlt, rfl⟩
          exact ⟨hlt, rfl⟩
        · rintro ⟨hlt, rfl⟩
          exact ⟨hlt, rfl⟩
      unfold StandsAt
      rw [h.consistent.toLinked.realKeys_eq_keys hunrouted, keys, hplace]
      rcases Nat.lt_or_ge key g.nodes.size with hkey | hkey
      · rw [h.numbered hunrouted key hkey, Option.some.injEq]
        exact and_iff_right hkey
      · have hnone : g.matrixPlace .insertion key = none := by
          simp [matrixPlace, (g.node?_eq_none_iff key).2 hkey]
        rw [hnone]
        exact iff_of_false (fun h => Nat.not_lt.2 hkey h.1) (Option.some_ne_none place).symm

theorem eq_of_matrixPlace_eq {u v : NodeKey} {place : Nat}
    (hu : g.matrixPlace indexing u = some place) (hv : g.matrixPlace indexing v = some place) :
    u = v := by
  rw [← standsAt_iff h hunrouted] at hu hv
  cases indexing with
  | rank =>
      replace hu := (h.consistent.rankOf_iff u place).1 hu
      rw [(h.consistent.rankOf_iff v place).1 hv, Option.some.injEq] at hu
      exact hu.symm
  | insertion => exact Option.some.inj (hu.symm.trans hv)

/-- The places are those of the rows and columns of the matrix. -/
theorem matrixPlace_lt {key : NodeKey} {place : Nat}
    (hkey : g.matrixPlace indexing key = some place) : place < g.realKeys.length := by
  rw [← standsAt_iff h hunrouted] at hkey
  cases indexing with
  | rank =>
      have hsubset := h.consistent.ranking_subset_realKeys hunrouted
      calc place
          _ < g.ranking.length :=
            (List.getElem?_eq_some_iff.1 ((h.consistent.rankOf_iff key place).1 hkey)).1
          _ ≤ g.realKeys.length := h.consistent.nodup_ranking.length_le_of_subset hsubset
  | insertion => exact (List.getElem?_eq_some_iff.1 hkey).1

/-- An edge is counted in the cell of its ends, and nowhere else. -/
theorem mem_cells_iff {i j : Nat} :
    (i, j) ∈ g.edges.filterMap (g.cellOf indexing) ↔
      ∃ edge ∈ g.edges, g.StandsAt indexing edge.dependent i ∧ g.StandsAt indexing edge.parent j := by
  simp only [List.mem_filterMap, cellOf_eq_some_iff, standsAt_iff h hunrouted]

theorem count_cells {u v : NodeKey} {i j : Nat} (hu : g.StandsAt indexing u i)
    (hv : g.StandsAt indexing v j) :
    (g.edges.filterMap (g.cellOf indexing)).count (i, j) = g.edges.count ⟨u, v⟩ := by
  rw [standsAt_iff h hunrouted] at hu hv
  rw [List.count_filterMap]
  refine List.countP_congr fun edge _ => ?_
  rw [beq_iff_eq, beq_iff_eq, cellOf_eq_some_iff]
  constructor
  · rintro ⟨hdependent, hparent⟩
    have hu' := eq_of_matrixPlace_eq h hunrouted indexing hdependent hu
    have hv' := eq_of_matrixPlace_eq h hunrouted indexing hparent hv
    rw [← hu', ← hv']
  · rintro rfl
    exact ⟨hu, hv⟩

theorem matrix_eq_tally_edges (indexing : Option MatrixIndexing) :
    g.matrix indexing =
      .tally (indexing.getD g.defaultIndexing) g.realKeys.length
        (g.edges.filterMap (g.cellOf (indexing.getD g.defaultIndexing))) := by
  have hlinked := h.consistent.toLinked
  rw [matrix_eq_tally hlinked, straightEdges_of_unrouted hlinked hunrouted]

theorem mem_cells_lt {cell : Nat × Nat} (hcell : cell ∈ g.edges.filterMap (g.cellOf indexing)) :
    cell.1 < g.realKeys.length ∧ cell.2 < g.realKeys.length := by
  obtain ⟨edge, -, hdependent, hparent⟩ := (mem_cells_iff h hunrouted indexing).1 hcell
  rw [standsAt_iff h hunrouted] at hdependent hparent
  exact ⟨matrixPlace_lt h hunrouted indexing hdependent, matrixPlace_lt h hunrouted indexing hparent⟩

theorem get_matrix (indexing : Option MatrixIndexing) (i j : Nat) :
    (g.matrix indexing).get i j =
      (g.edges.filterMap (g.cellOf (indexing.getD g.defaultIndexing))).count (i, j) := by
  rw [matrix_eq_tally_edges h hunrouted, DependencyMatrix.get_tally]
  split
  · rfl
  · rename_i hout
    symm
    rw [List.count_eq_zero]
    exact fun hcell => hout (mem_cells_lt h hunrouted _ hcell)

theorem countsEdges_matrix (indexing : Option MatrixIndexing) :
    CountsEdges g (g.matrix indexing) := by
  have hget := get_matrix h hunrouted indexing
  have htally := matrix_eq_tally_edges h hunrouted indexing
  have hindexing : (g.matrix indexing).indexing = indexing.getD g.defaultIndexing := by
    rw [htally]
    rfl
  have htotal : (g.matrix indexing).total =
      g.edges.countP fun edge => (g.cellOf (g.matrix indexing).indexing edge).isSome := by
    rw [hindexing, htally, DependencyMatrix.total_tally fun _ hcell => mem_cells_lt h hunrouted _ hcell,
      List.length_filterMap_eq_countP]
  rw [← hindexing] at hget htally
  refine { size_eq := ?_, length_row := ?_, eq_of_standsAt := ?_, get_eq := ?_, get_eq_zero := ?_
           total_by_rank := ?_, total_by_insertion := ?_ }
  · rw [htally, DependencyMatrix.size_tally]
  · rw [htally]
    exact fun row hrow => DependencyMatrix.length_of_mem_rows_tally hrow
  · intro u v place hu hv
    rw [standsAt_iff h hunrouted] at hu hv
    exact eq_of_matrixPlace_eq h hunrouted _ hu hv
  · intro u v i j hu hv
    rw [hget, count_cells h hunrouted _ hu hv]
  · intro i j hnone
    rw [hget, List.count_eq_zero, mem_cells_iff h hunrouted]
    rintro ⟨edge, -, hdependent, hparent⟩
    rcases hnone with hnone | hnone
    · exact hnone edge.dependent hdependent
    · exact hnone edge.parent hparent
  · intro hrank
    rw [htotal, hrank]
    refine List.countP_congr fun edge _ => ?_
    simp only [Option.isSome_iff_exists, Prod.exists, cellOf_eq_some_iff, decide_eq_true_eq,
      exists_and_left, exists_and_right]
    rfl
  · intro hinsertion
    rw [htotal, hinsertion, edgeCount, List.countP_eq_length]
    intro edge hedge
    obtain ⟨hdependent, hparent⟩ := h.consistent.toLinked.mem_keys_of_mem_edges hedge
    rw [Option.isSome_iff_exists]
    exact ⟨_, cellOf_eq_some_iff.2 ⟨h.numbered hunrouted _ ((mem_keys _ _).1 hdependent),
      h.numbered hunrouted _ ((mem_keys _ _).1 hparent)⟩⟩

/-- Counted by rank, edges lead below the diagonal. -/
theorem lt_of_get_matrix_pos (hdescending : Descending g) {i j : Nat}
    (hpos : 0 < (g.matrix (some .rank)).get i j) : j < i := by
  rw [get_matrix h hunrouted, List.count_pos_iff, mem_cells_iff h hunrouted] at hpos
  obtain ⟨edge, hedge, hdependent, hparent⟩ := hpos
  exact hdescending hunrouted _ _ (mem_edges_iff.1 hedge) i j hdependent hparent

end Unrouted

/-! ## After a routing -/

theorem resolveFrom_congr (hparents : g'.parentsOf = g.parentsOf)
    (hkind : g'.isWaypoint = g.isWaypoint) (fuel : Nat) (key : NodeKey) :
    g'.resolveFrom fuel key = g.resolveFrom fuel key := by
  induction fuel generalizing key with
  | zero => rfl
  | succ fuel ih =>
      rw [resolveFrom, resolveFrom, hparents, hkind]
      simp only [ih]

/-- Layers, payloads and positions do not matter for a matrix. -/
theorem matrix_congr (hsize : g'.nodes.size = g.nodes.size) (hparents : g'.parentsOf = g.parentsOf)
    (hkind : g'.isWaypoint = g.isWaypoint) (hplace : g'.matrixPlace = g.matrixPlace)
    (hreal : g'.realKeys = g.realKeys) (hsorted : g'.sorted = g.sorted) :
    g'.matrix = g.matrix := by
  have hresolve : g'.resolve = g.resolve := by
    funext key
    rw [resolve, hsize, resolveFrom_congr hparents hkind, resolve]
  have hcells : g'.matrixCells = g.matrixCells := by
    funext indexing key
    rw [matrixCells, hplace, hparents, hresolve, matrixCells]
  funext indexing
  rw [matrix, matrix, hcells, hreal, defaultIndexing, hsorted, defaultIndexing]

/-- Routing leaves every matrix as it is. -/
theorem Routed.matrix_eq {chains : List Chain} (h : Routed g g' chains) (hlinked : Linked g)
    (hunrouted : g.routed = false) (hlinked' : Linked g') (hsorted : g'.sorted = g.sorted)
    (indexing : Option MatrixIndexing) : g'.matrix indexing = g.matrix indexing := by
  have hdefault : g'.defaultIndexing = g.defaultIndexing := by
    rw [defaultIndexing, hsorted, defaultIndexing]
  rw [matrix_eq_tally hlinked', matrix_eq_tally hlinked, hdefault, h.realKeys_eq]
  generalize indexing.getD g.defaultIndexing = indexing
  -- the old nodes keep their places, so an old edge is counted in the cell it was counted in
  have hcells : g.edges.filterMap (g'.cellOf indexing) = g.edges.filterMap (g.cellOf indexing) := by
    refine List.filterMap_congr fun edge hedge => ?_
    obtain ⟨hdependent, hparent⟩ := hlinked.mem_keys_of_mem_edges hedge
    rw [cellOf, matrixPlace_of_bareNode?_eq (h.bareNode?_eq _ hdependent),
      matrixPlace_of_bareNode?_eq (h.bareNode?_eq _ hparent), cellOf]
  rw [straightEdges_of_unrouted hlinked hunrouted, ← hcells]
  exact DependencyMatrix.tally_eq_of_perm ((h.straightEdges_perm hlinked hunrouted).filterMap _)

/-- Whether an operation adds a node or edits edges on behalf of its caller. -/
def Operation.edits : Operation α → Bool
  | .addNode _ _ => true
  | operation => operation.editsEdges

/-- What is done to a routed graph without an edit leaves its matrices alone. -/
theorem matrix_perform_of_routed (hrouted : g.routed = true) {operation : Operation α}
    (hkeeps : operation.edits = false) :
    (g.perform operation).matrix = g.matrix ∧ (g.perform operation).routed = true := by
  -- a routed graph is neither layered nor routed again
  have hlayering : ∀ policy, g.assignLayers policy = (g, .error .resort) := by
    intro policy
    rw [assignLayers, if_pos hrouted]
  cases operation with
  | addNode id data => exact Bool.noConfusion hkeeps
  | addEdge dependent parent => exact Bool.noConfusion hkeeps
  | removeEdge dependent parent => exact Bool.noConfusion hkeeps
  | setData key data =>
      obtain ⟨hparents, hkind, hplace⟩ := g.reads_setData key data
      exact ⟨matrix_congr (nodes_size_modifyNode _ _ _) hparents hkind hplace rfl rfl, hrouted⟩
  | setPosition key position =>
      obtain ⟨hparents, hkind, hplace⟩ := g.reads_setPosition key position
      exact ⟨matrix_congr (nodes_size_modifyNode _ _ _) hparents hkind hplace rfl rfl, hrouted⟩
  | assignLayers policy =>
      rw [perform, hlayering]
      exact ⟨rfl, hrouted⟩
  | routeLongEdges =>
      have hsame : g.routeLongEdges.1 = g := by
        cases hsorted : g.sorted <;> simp [routeLongEdges, hsorted, hrouted]
      rw [perform, hsame]
      exact ⟨rfl, hrouted⟩
  | orderLayers sweeps =>
      obtain ⟨layers, heq, -⟩ := g.orderLayers_fst sweeps
      rw [perform, heq]
      exact ⟨matrix_congr rfl rfl rfl rfl rfl rfl, hrouted⟩
  | layOut options =>
      rw [perform, layOut, hlayering]
      exact ⟨rfl, hrouted⟩

theorem matrix_run_of_routed (hrouted : g.routed = true) {operations : List (Operation α)}
    (hkeep : ∀ operation ∈ operations, operation.edits = false) :
    (g.run operations).matrix = g.matrix := by
  induction operations generalizing g with
  | nil => rfl
  | cons operation rest ih =>
      obtain ⟨hfirst, hrest⟩ := List.forall_mem_cons.1 hkeep
      obtain ⟨hmatrix, hstill⟩ := matrix_perform_of_routed hrouted hfirst
      exact (ih hstill hrest).trans hmatrix

/-- **Matrices.**  Before and after a routing, and after whatever follows it without an edit, a
matrix counts the edges that the graph had before the routing.  Unless edges were edited after the
last layering, all of them lead below the diagonal when nodes are numbered by rank. -/
theorem Reachable.matrix_run_routeLongEdges (h : Reachable g) (hsorted : g.sorted = true)
    (hunrouted : g.routed = false) (later : List (Operation α))
    (hlater : ∀ operation ∈ later, operation.edits = false) :
    (∀ indexing : Option MatrixIndexing,
      (g.routeLongEdges.1.run later).matrix indexing = g.matrix indexing ∧
        (g.matrix indexing).indexing = indexing.getD .rank ∧
        CountsEdges g (g.matrix indexing)) ∧
      ∀ (before : Graph α) (policy : CyclePolicy) (since : List (Operation α)), Reachable before →
        (∀ operation ∈ since, operation.editsEdges = false) →
        g = (before.assignLayers policy).1.run since →
        ∀ i j, 0 < (g.matrix (some .rank)).get i j → j < i := by
  have hconsistent := h.consistent
  have hlinked := hconsistent.markRouted.toLinked
  obtain ⟨state, chains, heq, hsplitting, hperm⟩ :=
    exists_splitting_routeLongEdges hconsistent hsorted hunrouted
  have hrouted : Routed g state.1 chains :=
    (hsplitting.routed hperm hlinked (hconsistent.waypointKeys_of_unrouted hunrouted)).of_markRouted
  have hstate : g.routeLongEdges.1 = state.1 := by rw [heq]
  constructor
  · intro indexing
    refine ⟨?_, ?_, countsEdges_matrix h hunrouted indexing⟩
    · rw [hstate, matrix_run_of_routed hsplitting.routed_eq hlater]
      refine hrouted.matrix_eq hconsistent.toLinked hunrouted hsplitting.consistent.toLinked ?_ indexing
      rw [← hstate, sorted_routeLongEdges]
    · have hdefault : g.defaultIndexing = .rank := by
        rw [defaultIndexing, hsorted]
        rfl
      rw [matrix_eq_tally hconsistent.toLinked, hdefault]
      rfl
  · rintro before policy since hbefore hsince rfl i j hpos
    refine lt_of_get_matrix_pos h hunrouted ?_ hpos
    exact (hbefore.consistent.toLinked.descending_assignLayers policy).run
      (hbefore.perform (.assignLayers policy)) hsince

/-- Two edges between the same two nodes, a long edge and a node that depends on itself, ordered
after the routing. -/
theorem matrix_run_routeLongEdges_doubled :
    (∀ indexing : Option MatrixIndexing,
      ((shortcut.run [.addEdge 3 0, .assignLayers .lenient]).routeLongEdges.1.run
          [.orderLayers 2]).matrix indexing =
        (shortcut.run [.addEdge 3 0, .assignLayers .lenient]).matrix indexing ∧
      ((shortcut.run [.addEdge 3 0, .assignLayers .lenient]).matrix indexing).indexing =
        indexing.getD .rank ∧
      CountsEdges (shortcut.run [.addEdge 3 0, .assignLayers .lenient])
        ((shortcut.run [.addEdge 3 0, .assignLayers .lenient]).matrix indexing)) ∧
      ∀ i j, 0 < ((shortcut.run [.addEdge 3 0, .assignLayers .lenient]).matrix
        (some .rank)).get i j → j < i := by
  have hdoubled : Reachable (shortcut.run [.addEdge 3 0]) := reachable_shortcut.run _
  obtain ⟨hsame, hbelow⟩ := (hdoubled.perform (.assignLayers .lenient)).matrix_run_routeLongEdges rfl
    (by decide +kernel) [.orderLayers 2] (by simp [Operation.edits, Operation.editsEdges])
  exact ⟨hsame, hbelow _ .lenient [] hdoubled (by simp) rfl⟩

end JobGraph.Graph
