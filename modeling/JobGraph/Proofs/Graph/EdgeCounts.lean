import JobGraph.Graph.Matrix
import Mathlib.Tactic

/-!
# Counting into a matrix

Cells are counted one after the other into a matrix of zeros.  In the end every cell of the matrix
holds how often it was counted, so the order does not matter, and what was counted outside of the
matrix is lost.
-/

namespace JobGraph.DependencyMatrix

variable {indexing : MatrixIndexing} {size : Nat}

/-- The matrix that holds how often each of its cells is in a list. -/
def tally (indexing : MatrixIndexing) (size : Nat) (cells : List (Nat × Nat)) : DependencyMatrix :=
  ⟨indexing, (List.range size).map fun i => (List.range size).map fun j => cells.count (i, j)⟩

theorem tally_nil : tally indexing size [] = zero indexing size := by
  simp [tally, zero]

/-- Counting one more cell. -/
theorem count_tally (cells : List (Nat × Nat)) (cell : Nat × Nat) :
    (tally indexing size cells).count cell = tally indexing size (cells ++ [cell]) := by
  obtain ⟨row, column⟩ := cell
  have hcount : ∀ i j, (cells ++ [(row, column)]).count (i, j) =
      cells.count (i, j) + if row = i ∧ column = j then 1 else 0 := by
    intro i j
    rw [List.count_append, List.count_singleton]
    simp only [beq_iff_eq, Prod.mk.injEq]
  unfold tally count
  congr 1
  refine List.ext_getElem (by simp) fun i hi _ => ?_
  have hi' : i < size := by simpa using hi
  rw [List.getElem_modify, List.getElem_map, List.getElem_map, List.getElem_range]
  refine List.ext_getElem (by split <;> simp) fun j hj _ => ?_
  have hj' : j < size := by
    revert hj
    split <;> simp
  simp only [List.getElem_map, List.getElem_range, hcount]
  by_cases hrow : row = i
  · by_cases hcolumn : column = j <;> simp [hrow, hcolumn]
  · simp [hrow]

theorem foldl_count_zero (cells : List (Nat × Nat)) :
    cells.foldl count (zero indexing size) = tally indexing size cells := by
  induction cells using List.reverseRecOn with
  | nil => exact tally_nil.symm
  | append_singleton cells cell ih => rw [List.foldl_concat, ih, count_tally]

/-- The order of the cells does not matter. -/
theorem tally_eq_of_perm {cells others : List (Nat × Nat)} (h : cells.Perm others) :
    tally indexing size cells = tally indexing size others := by
  unfold tally
  simp only [h.count_eq]

@[simp]
theorem size_tally (cells : List (Nat × Nat)) : (tally indexing size cells).size = size := by
  simp [tally, DependencyMatrix.size]

theorem length_of_mem_rows_tally {cells : List (Nat × Nat)} {row : List Nat}
    (h : row ∈ (tally indexing size cells).rows) : row.length = size := by
  obtain ⟨i, -, rfl⟩ := List.mem_map.1 h
  simp

theorem get_tally (cells : List (Nat × Nat)) (i j : Nat) :
    (tally indexing size cells).get i j =
      if i < size ∧ j < size then cells.count (i, j) else 0 := by
  unfold tally get row?
  rw [List.getElem?_map]
  by_cases hi : i < size
  · rw [List.getElem?_range hi, Option.map_some, Option.bind_some, List.getElem?_map]
    by_cases hj : j < size
    · rw [List.getElem?_range hj, if_pos ⟨hi, hj⟩]
      rfl
    · rw [List.getElem?_eq_none (by simpa using hj), if_neg (fun h => hj h.2)]
      rfl
  · rw [List.getElem?_eq_none (by simpa using hi), if_neg (fun h => hi h.1)]
    rfl

/-- Nothing is lost when all cells are in the matrix. -/
theorem total_tally {cells : List (Nat × Nat)} (h : ∀ cell ∈ cells, cell.1 < size ∧ cell.2 < size) :
    (tally indexing size cells).total = cells.length := by
  have hinside : ∀ cell ∈ (cells : Multiset (Nat × Nat)),
      cell ∈ Finset.range size ×ˢ Finset.range size := by
    intro cell hcell
    rw [Finset.mem_product, Finset.mem_range, Finset.mem_range]
    exact h cell hcell
  calc (tally indexing size cells).total
      _ = ((List.range size).map fun i =>
            ((List.range size).map fun j => cells.count (i, j)).sum).sum := by
        show List.sum _ = _
        rw [tally, List.sum_flatten, List.map_map]
        rfl
      _ = ∑ i ∈ Finset.range size, ∑ j ∈ Finset.range size, cells.count (i, j) := rfl
      _ = ∑ cell ∈ Finset.range size ×ˢ Finset.range size, cells.count cell :=
        (Finset.sum_product' _ _ fun i j => cells.count (i, j)).symm
      _ = cells.length := by
        rw [← Multiset.coe_card, ← Multiset.sum_count_eq_card hinside]
        refine Finset.sum_congr rfl fun cell _ => ?_
        rw [Multiset.coe_count]
        exact List.countP_congr fun other _ => by simp only [beq_iff_eq]

end JobGraph.DependencyMatrix
