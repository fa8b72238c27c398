import JobGraph.Proofs.Graph.EdgeCounts
import JobGraph.Proofs.Graph.GuardedEdges
import JobGraph.Proofs.Graph.Sizes

/-!
# Guarded matrices

A matrix of a reachable graph has a row and a column for each number that a real node can have, by
rank or in the order of creation, so that every edge has its cell.

To find the real node behind a waypoint, its chain is walked along.  After edges were edited, a walk
may go round in circles and never end.  One that ends passes no node twice, since it would pass it
for ever then; so it passes no more nodes than there are, and the fuel of the walk lasts.
-/

namespace JobGraph

/-- Counts one more edge in a cell that is there. -/
def DependencyMatrix.count? (matrix : DependencyMatrix) (edge : Nat × Nat) :
    Option DependencyMatrix := do
  let row ← matrix.rows[edge.1]?
  let _ ← row[edge.2]?
  some (matrix.count edge)

theorem DependencyMatrix.count?_tally {indexing : MatrixIndexing} {size : Nat}
    (cells : List (Nat × Nat)) {cell : Nat × Nat} (hrow : cell.1 < size) (hcolumn : cell.2 < size) :
    (tally indexing size cells).count? cell = some ((tally indexing size cells).count cell) := by
  have hcell : (tally indexing size cells).rows[cell.1]? =
      some ((List.range size).map fun column => cells.count (cell.1, column)) := by
    rw [tally, List.getElem?_map, List.getElem?_range hrow, Option.map_some]
  rw [count?, hcell]
  simp only [Option.bind_eq_bind, Option.bind_some, List.getElem?_map, List.getElem?_range hcolumn,
    Option.map_some]

namespace Graph

variable {α : Type} {g : Graph α}

/-! ## Guarded steps -/

/-- The real node at the end of a chain of waypoints that are there; nothing if the fuel does not
last. -/
def resolveFrom? (g : Graph α) : Nat → NodeKey → Option (Option NodeKey)
  | 0, _ => none
  | fuel + 1, key => do
      let waypoint ← g.read? Node.isWaypoint key
      if waypoint then
        let parents ← g.read? Node.parents key
        match parents.head? with
        | none => some none
        | some next => resolveFrom? g fuel next
      else some (some key)

/-- The number of a node that is there in a matrix. -/
def matrixPlace? (g : Graph α) (indexing : MatrixIndexing) (key : NodeKey) : Option (Option Nat) :=
  match indexing with
  | .rank => g.read? Node.rank key
  | .insertion => g.read? (fun node => some node.index) key

/-- The edges of one real node that is there as cells of a matrix. -/
def matrixCells? (g : Graph α) (indexing : MatrixIndexing) (key : NodeKey) :
    Option (List (Nat × Nat)) := do
  match ← g.matrixPlace? indexing key with
  | none => some []
  | some dependent =>
      let parents ← g.read? Node.parents key
      parents.filterMapM fun parent => do
        match ← g.resolveFrom? (g.nodes.size + 1) parent with
        | none => some none
        | some target =>
            let place ← g.matrixPlace? indexing target
            some (place.map fun parent => (dependent, parent))

/-- The dependency matrix of the real nodes, counted in cells that are there. -/
def matrix? (g : Graph α) (indexing : Option MatrixIndexing) : Option DependencyMatrix := do
  let indexing := indexing.getD g.defaultIndexing
  let cells ← g.realKeys.mapM (g.matrixCells? indexing)
  cells.flatten.foldlM DependencyMatrix.count? (.zero indexing g.realKeys.length)

/-! ## Walks -/

/-- The next node of a walk: the first parent of a waypoint. -/
def next? (g : Graph α) (key : NodeKey) : Option NodeKey :=
  if g.isWaypoint key then (g.parentsOf key).head? else none

theorem next?_eq_some_iff {key next : NodeKey} :
    g.next? key = some next ↔ g.isWaypoint key = true ∧ (g.parentsOf key).head? = some next := by
  rw [next?]
  split <;> simp_all

/-- The nodes that a walk passes from a node to where it ends. -/
inductive Walk (g : Graph α) : NodeKey → List NodeKey → Prop
  | stop {key : NodeKey} (h : g.next? key = none) : Walk g key [key]
  | step {key next : NodeKey} {path : List NodeKey} (h : g.next? key = some next)
      (hrest : Walk g next path) : Walk g key (key :: path)

namespace Walk

variable {key : NodeKey} {path : List NodeKey}

theorem unique {other : List NodeKey} (h : Walk g key path) (h' : Walk g key other) :
    path = other := by
  induction h generalizing other with
  | stop hnext =>
      cases h' with
      | stop => rfl
      | step hnext' => rw [hnext] at hnext'; exact absurd hnext' nofun
  | step hnext _ ih =>
      cases h' with
      | stop hnext' => rw [hnext'] at hnext; exact absurd hnext nofun
      | step hnext' hrest' =>
          rw [hnext, Option.some.injEq] at hnext'
          subst hnext'
          rw [ih hrest']

/-- From each node that it passes, the walk goes on with what is left of it. -/
theorem exists_of_mem (h : Walk g key path) {other : NodeKey} (hother : other ∈ path) :
    ∃ rest, Walk g other rest ∧ rest.length ≤ path.length := by
  induction h with
  | stop hnext =>
      rw [List.mem_singleton.1 hother]
      exact ⟨_, .stop hnext, le_rfl⟩
  | step hnext hrest ih =>
      rcases List.mem_cons.1 hother with rfl | hother
      · exact ⟨_, .step hnext hrest, le_rfl⟩
      · obtain ⟨rest, hwalk, hle⟩ := ih hother
        exact ⟨rest, hwalk, hle.trans (Nat.le_succ _)⟩

/-- A walk that ends passes no node twice. -/
theorem nodup (h : Walk g key path) : path.Nodup := by
  induction h with
  | stop => exact List.nodup_singleton _
  | step hnext hrest ih =>
      refine List.nodup_cons.2 ⟨fun hmem => ?_, ih⟩
      -- from there on it would go on as it did before, and be longer than itself
      obtain ⟨rest, hwalk, hle⟩ := hrest.exists_of_mem hmem
      rw [← (Walk.step hnext hrest).unique hwalk, List.length_cons] at hle
      omega

end Walk

section Linked

variable (hlinked : Linked g) {key : NodeKey} {path : List NodeKey}

include hlinked

theorem Linked.lt_of_next? {next : NodeKey} (h : g.next? key = some next) : next < g.nodes.size :=
  hlinked.lt_of_mem_parentsOf (List.mem_of_mem_head? (next?_eq_some_iff.1 h).2)

/-- A walk that ends passes no more nodes than there are. -/
theorem Walk.length_le (h : Walk g key path) (hkey : key < g.nodes.size) :
    path.length ≤ g.nodes.size := by
  have hsubset : path ⊆ g.keys := by
    induction h with
    | stop => simpa using hkey
    | step hnext _ ih =>
        exact List.cons_subset.2 ⟨(mem_keys g _).2 hkey, ih (hlinked.lt_of_next? hnext)⟩
  simpa [keys] using h.nodup.length_le_of_subset hsubset

/-- The fuel lasts for a walk of as many nodes. -/
theorem Walk.resolveFrom?_eq (h : Walk g key path) (hkey : key < g.nodes.size) {fuel : Nat}
    (hfuel : path.length ≤ fuel) : g.resolveFrom? fuel key = some (g.resolveFrom fuel key) := by
  induction h generalizing fuel with
  | @stop key hnext =>
      obtain ⟨fuel, rfl⟩ := Nat.exists_eq_add_of_le' hfuel
      rw [List.length_singleton, resolveFrom?, resolveFrom, read?_isWaypoint hkey, read?_parents hkey]
      cases hwaypoint : g.isWaypoint key with
      | false => rfl
      | true =>
          have hhead : (g.parentsOf key).head? = none := by
            rwa [next?, hwaypoint, if_pos rfl] at hnext
          simp only [hhead, Option.bind_eq_bind, Option.bind_some, Option.bind_none, if_true]
  | @step key next path hnext hrest ih =>
      obtain ⟨fuel, rfl⟩ := Nat.exists_eq_add_of_le' ((Nat.succ_pos _).trans_le hfuel)
      obtain ⟨hwaypoint, hhead⟩ := next?_eq_some_iff.1 hnext
      have hrun := ih (hlinked.lt_of_next? hnext) (Nat.le_of_succ_le_succ hfuel)
      rw [resolveFrom?, resolveFrom, read?_isWaypoint hkey, read?_parents hkey, hwaypoint]
      simp only [hhead, Option.bind_eq_bind, Option.bind_some, if_true, hrun]

omit hlinked in
/-- If the fuel lasts, the walk ends. -/
theorem exists_walk_of_resolveFrom? {fuel : Nat} {found : Option NodeKey}
    (h : g.resolveFrom? fuel key = some found) : ∃ path, Walk g key path := by
  induction fuel generalizing key with
  | zero => exact absurd h nofun
  | succ fuel ih =>
      cases hnext : g.next? key with
      | none => exact ⟨[key], .stop hnext⟩
      | some next =>
          obtain ⟨hwaypoint, hhead⟩ := next?_eq_some_iff.1 hnext
          have hkey : key < g.nodes.size := g.lt_of_mem_parentsOf (List.mem_of_mem_head? hhead)
          rw [resolveFrom?, read?_isWaypoint hkey, read?_parents hkey, hwaypoint] at h
          simp only [hhead, Option.bind_eq_bind, Option.bind_some, if_true] at h
          obtain ⟨path, hwalk⟩ := ih h
          exact ⟨key :: path, .step hnext hwalk⟩

/-- A walk leads to a real node of the graph. -/
theorem Linked.target_of_resolveFrom {fuel : Nat} {target : NodeKey} (hkey : key < g.nodes.size)
    (h : g.resolveFrom fuel key = some target) :
    target < g.nodes.size ∧ g.isWaypoint target = false := by
  induction fuel generalizing key with
  | zero => exact absurd h nofun
  | succ fuel ih =>
      rw [resolveFrom] at h
      split at h
      · obtain ⟨next, hhead, hnext⟩ := Option.bind_eq_some_iff.1 h
        exact ih (hlinked.lt_of_mem_parentsOf (List.mem_of_mem_head? hhead)) hnext
      · rename_i hreal
        rw [← Option.some.inj h]
        exact ⟨hkey, Bool.eq_false_of_not_eq_true hreal⟩

end Linked

/-! ## Cells -/

theorem matrixPlace?_eq {key : NodeKey} (h : key < g.nodes.size) (indexing : MatrixIndexing) :
    g.matrixPlace? indexing key = some (g.matrixPlace indexing key) := by
  cases indexing with
  | rank => exact read?_rank h
  | insertion =>
      rw [matrixPlace?, matrixPlace, read?, node?, Array.getElem?_eq_getElem h]
      rfl

/-- The walks from the parents of a node with a number end. -/
def WalksEnd (g : Graph α) (indexing : MatrixIndexing) (key : NodeKey) : Prop :=
  (g.matrixPlace indexing key).isSome → ∀ parent ∈ g.parentsOf key, ∃ path, Walk g parent path

section Cells

variable {indexing : MatrixIndexing} {key : NodeKey}

theorem Linked.matrixCells?_eq (h : Linked g) (hkey : key < g.nodes.size)
    (hends : g.WalksEnd indexing key) :
    g.matrixCells? indexing key = some (g.matrixCells indexing key) := by
  rw [matrixCells?, matrixCells, matrixPlace?_eq hkey, read?_parents hkey]
  cases hplace : g.matrixPlace indexing key with
  | none => rfl
  | some dependent =>
      refine filterMapM_eq_some_filterMap fun parent hparent => ?_
      obtain ⟨path, hwalk⟩ := hends (Option.isSome_of_eq_some hplace) parent hparent
      have hlt := h.lt_of_mem_parentsOf hparent
      rw [hwalk.resolveFrom?_eq h hlt (Nat.le_succ_of_le (hwalk.length_le h hlt)), resolve]
      cases hresolve : g.resolveFrom (g.nodes.size + 1) parent with
      | none => rfl
      | some target =>
          have htarget := h.target_of_resolveFrom hlt hresolve
          simp only [matrixPlace?_eq htarget.1, Option.bind_eq_bind, Option.bind_some]
          cases g.matrixPlace indexing target <;> rfl

/-- Every edge has its cell. -/
theorem Reachable.lt_of_mem_matrixCells (h : Reachable g) (hkey : key ∈ g.realKeys)
    {cell : Nat × Nat} (hcell : cell ∈ g.matrixCells indexing key) :
    cell.1 < g.realKeys.length ∧ cell.2 < g.realKeys.length := by
  have hreal : g.isWaypoint key = false := by
    rw [h.consistent.realKeys_eq, List.mem_filter] at hkey
    simpa using hkey.2
  rw [matrixCells] at hcell
  split at hcell
  · exact absurd hcell List.not_mem_nil
  · rename_i dependent hplace
    obtain ⟨parent, hparent, hfound⟩ := List.mem_filterMap.1 hcell
    simp only [Option.bind_eq_bind, Option.bind_eq_some_iff, Option.some.injEq] at hfound
    obtain ⟨target, hresolve, place, hplace', rfl⟩ := hfound
    have hlinked := h.consistent.toLinked
    have htarget := hlinked.target_of_resolveFrom (hlinked.lt_of_mem_parentsOf hparent) hresolve
    exact ⟨h.matrixPlace_lt hreal hplace, h.matrixPlace_lt htarget.2 hplace'⟩

end Cells

/-- The matrix of a reachable graph can be built if the walks end. -/
theorem Reachable.matrix?_eq (h : Reachable g) (indexing : Option MatrixIndexing)
    (hends : ∀ key ∈ g.realKeys, g.WalksEnd (indexing.getD g.defaultIndexing) key) :
    g.matrix? indexing = some (g.matrix indexing) := by
  have hlinked := h.consistent.toLinked
  have hcells : g.realKeys.mapM (g.matrixCells? (indexing.getD g.defaultIndexing)) =
      some (g.realKeys.map (g.matrixCells (indexing.getD g.defaultIndexing))) :=
    mapM_eq_some_map fun key hkey =>
      hlinked.matrixCells?_eq (hlinked.lt_of_mem_realKeys hkey) (hends key hkey)
  simp only [matrix?, matrix, hcells, Option.bind_eq_bind, Option.bind_some, List.flatMap_def]
  -- what was counted so far is a tally, in which the next cell is there
  refine (foldlM_eq_some_foldl_of_mem
    (fun matrix => ∃ cells, matrix = .tally (indexing.getD g.defaultIndexing) g.realKeys.length cells)
    ?_ ⟨[], DependencyMatrix.tally_nil.symm⟩).1
  rintro _ ⟨cells, rfl⟩ cell hcell
  obtain ⟨key, hkey, hcell⟩ := List.mem_flatMap.1 (List.flatMap_def ▸ hcell)
  obtain ⟨hrow, hcolumn⟩ := h.lt_of_mem_matrixCells hkey hcell
  exact ⟨DependencyMatrix.count?_tally cells hrow hcolumn, _, DependencyMatrix.count_tally cells cell⟩

/-- After the waypoint on a shortcut was made its own parent, the walk from `a` never ends. -/
example : ((ofRecords Prod.fst Prod.snd [("a", ["b", "c"]), ("b", ["c"]), ("c", [])]).run
    [.assignLayers .strict, .routeLongEdges, .removeEdge 3 2, .addEdge 3 3]).matrix? none = none := by
  decide +kernel

end Graph

end JobGraph
