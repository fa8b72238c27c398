import JobGraph.Proofs.Graph.Reading
import Mathlib.Data.Fintype.Pigeonhole
import Mathlib.Logic.Relation
import Mathlib.Order.ConditionallyCompleteLattice.Finset

/-!
# Depth and cycles

What a layering is measured against, said of the edges alone.  The depth of a node is the number of
edges of the longest path along parents that starts at it.  There is one unless the node leads to a
cycle, that is, unless paths along parents go on for ever: `exists_hasDepth_iff`.

The depth of a node is found from its parents, `hasDepth_zero_iff` and `hasDepth_succ_iff`; that is
how the frontiers of a layering meet it.
-/

namespace JobGraph.Graph

open Relation

variable {α : Type}

/-- A node depends on each of its parents. -/
def DependsOn (g : Graph α) (dependent parent : NodeKey) : Prop :=
  parent ∈ g.parentsOf dependent

/-- A path along parents with so many edges starts at the node. -/
inductive ParentPath (g : Graph α) : NodeKey → Nat → Prop
  | nil (key : NodeKey) : ParentPath g key 0
  | cons {key parent : NodeKey} {length : Nat} (hparent : parent ∈ g.parentsOf key)
      (hrest : ParentPath g parent length) : ParentPath g key (length + 1)

/-- The longest path along parents that starts at the node has so many edges. -/
def HasDepth (g : Graph α) (key : NodeKey) (depth : Nat) : Prop :=
  IsGreatest {length | g.ParentPath key length} depth

/-- The number of edges of the longest path along parents that starts at a node, if there is one. -/
noncomputable def depth (g : Graph α) (key : NodeKey) : Nat :=
  sSup {length | g.ParentPath key length}

/-- Some path along parents reaches a node that depends on itself. -/
def LeadsToCycle (g : Graph α) (key : NodeKey) : Prop :=
  ∃ node, ReflTransGen g.DependsOn key node ∧ TransGen g.DependsOn node node

variable {g g' : Graph α} {key : NodeKey}

/-! ## Depth -/

theorem HasDepth.unique {first second : Nat} (hfirst : g.HasDepth key first)
    (hsecond : g.HasDepth key second) : first = second :=
  IsGreatest.unique hfirst hsecond

theorem HasDepth.depth_eq {d : Nat} (h : g.HasDepth key d) : g.depth key = d :=
  IsGreatest.csSup_eq h

theorem ParentPath.of_parentsOf_eq (hparents : g'.parentsOf = g.parentsOf) {length : Nat}
    (h : g.ParentPath key length) : g'.ParentPath key length := by
  induction h with
  | nil key => exact .nil key
  | cons hparent _ ih => exact .cons (by rwa [hparents]) ih

/-! Paths, and hence depths, are about edges only. -/

theorem parentPath_of_parentsOf_eq (hparents : g'.parentsOf = g.parentsOf) :
    g'.ParentPath = g.ParentPath := by
  funext key length
  exact propext ⟨.of_parentsOf_eq hparents.symm, .of_parentsOf_eq hparents⟩

theorem hasDepth_of_parentsOf_eq (hparents : g'.parentsOf = g.parentsOf) :
    g'.HasDepth = g.HasDepth := by
  funext key d
  rw [HasDepth, HasDepth, parentPath_of_parentsOf_eq hparents]

theorem depth_of_parentsOf_eq (hparents : g'.parentsOf = g.parentsOf) : g'.depth = g.depth := by
  funext key
  rw [depth, depth, parentPath_of_parentsOf_eq hparents]

theorem hasDepth_zero_iff : g.HasDepth key 0 ↔ g.parentsOf key = [] := by
  constructor
  · intro h
    rw [List.eq_nil_iff_forall_not_mem]
    intro parent hparent
    exact absurd (h.2 (ParentPath.cons hparent (.nil parent))) (by omega)
  · intro h
    refine ⟨.nil key, ?_⟩
    rintro length (_ | ⟨hparent, _⟩)
    · exact le_rfl
    · simp [h] at hparent

/-- A path from a parent is at most one edge shorter than the longest one of the node. -/
theorem HasDepth.le_of_parentPath {d length : Nat} (h : g.HasDepth key (d + 1)) {parent : NodeKey}
    (hparent : parent ∈ g.parentsOf key) (hpath : g.ParentPath parent length) : length ≤ d :=
  Nat.le_of_succ_le_succ (h.2 (ParentPath.cons hparent hpath))

/-- Bounded paths have a longest one. -/
theorem exists_hasDepth_of_bound {bound : Nat}
    (hbound : ∀ length, g.ParentPath key length → length ≤ bound) :
    ∃ d ≤ bound, g.HasDepth key d := by
  have hmem := Nat.sSup_mem ⟨0, ParentPath.nil (g := g) key⟩ ⟨bound, hbound⟩
  exact ⟨_, hbound _ hmem, hmem, fun length hlength => le_csSup ⟨bound, hbound⟩ hlength⟩

/-- A node is one deeper than its deepest parent. -/
theorem hasDepth_succ_iff {d : Nat} :
    g.HasDepth key (d + 1) ↔
      (∀ parent ∈ g.parentsOf key, ∃ e ≤ d, g.HasDepth parent e) ∧
        ∃ parent ∈ g.parentsOf key, g.HasDepth parent d := by
  constructor
  · intro h
    have hparents : ∀ parent ∈ g.parentsOf key, ∃ e ≤ d, g.HasDepth parent e := fun parent hparent =>
      exists_hasDepth_of_bound fun _ hpath => h.le_of_parentPath hparent hpath
    refine ⟨hparents, ?_⟩
    -- the longest path itself starts with an edge to a parent of depth `d`
    obtain ⟨parent, hparent, hrest⟩ : ∃ parent ∈ g.parentsOf key, g.ParentPath parent d := by
      cases h.1 with
      | cons hparent hrest => exact ⟨_, hparent, hrest⟩
    obtain ⟨e, he, hdepth⟩ := hparents parent hparent
    have heq : e = d := le_antisymm he (hdepth.2 hrest)
    exact ⟨parent, hparent, heq ▸ hdepth⟩
  · rintro ⟨hall, parent, hparent, hdepth⟩
    refine ⟨.cons hparent hdepth.1, ?_⟩
    rintro length (_ | ⟨hother, hrest⟩)
    · exact Nat.zero_le _
    · obtain ⟨e, he, hdepth⟩ := hall _ hother
      exact Nat.succ_le_succ ((hdepth.2 hrest).trans he)

theorem HasDepth.lt_of_mem_parentsOf {d : Nat} (h : g.HasDepth key d) {parent : NodeKey}
    (hparent : parent ∈ g.parentsOf key) : ∃ e < d, g.HasDepth parent e := by
  cases d with
  | zero => simp [hasDepth_zero_iff.1 h] at hparent
  | succ d =>
      obtain ⟨e, he, hdepth⟩ := (hasDepth_succ_iff.1 h).1 parent hparent
      exact ⟨e, Nat.lt_succ_of_le he, hdepth⟩

/-- The longest path passes through every smaller depth. -/
theorem HasDepth.exists_of_le {d : Nat} (h : g.HasDepth key d) {e : Nat} (he : e ≤ d) :
    ∃ other, ReflTransGen g.DependsOn key other ∧ g.HasDepth other e := by
  induction d generalizing key with
  | zero => exact ⟨key, .refl, Nat.le_zero.1 he ▸ h⟩
  | succ d ih =>
      rcases he.eq_or_lt with rfl | hlt
      · exact ⟨key, .refl, h⟩
      · obtain ⟨parent, hparent, hdepth⟩ := (hasDepth_succ_iff.1 h).2
        obtain ⟨other, hreach, hother⟩ := ih hdepth (Nat.le_of_lt_succ hlt)
        exact ⟨other, .head hparent hreach, hother⟩

theorem exists_hasDepth_of_parents
    (hparents : ∀ parent ∈ g.parentsOf key, ∃ d, g.HasDepth parent d) : ∃ d, g.HasDepth key d := by
  have hbound : ∃ bound, ∀ parent ∈ g.parentsOf key, ∀ length,
      g.ParentPath parent length → length ≤ bound := by
    generalize g.parentsOf key = parents at hparents
    induction parents with
    | nil => exact ⟨0, by simp⟩
    | cons first rest ih =>
        obtain ⟨bound, hrest⟩ := ih fun parent hparent => hparents parent (.tail first hparent)
        obtain ⟨d, hfirst⟩ := hparents first (.head rest)
        refine ⟨max d bound, fun parent hparent length hpath => ?_⟩
        rcases List.mem_cons.1 hparent with rfl | hparent
        · exact (hfirst.2 hpath).trans (le_max_left d bound)
        · exact (hrest parent hparent length hpath).trans (le_max_right d bound)
  obtain ⟨bound, hbound⟩ := hbound
  have hpaths : ∀ length, g.ParentPath key length → length ≤ bound + 1 := by
    rintro length (_ | ⟨hparent, hrest⟩)
    · exact Nat.zero_le _
    · exact Nat.succ_le_succ (hbound _ hparent _ hrest)
  obtain ⟨d, -, hdepth⟩ := exists_hasDepth_of_bound hpaths
  exact ⟨d, hdepth⟩

/-! ## Cycles -/

theorem ParentPath.of_reflTransGen {node : NodeKey} (hreach : ReflTransGen g.DependsOn key node)
    {length : Nat} (h : g.ParentPath node length) : ∃ longer ≥ length, g.ParentPath key longer := by
  induction hreach using ReflTransGen.head_induction_on with
  | refl => exact ⟨length, le_rfl, h⟩
  | head hparent _ ih =>
      obtain ⟨longer, hle, hpath⟩ := ih
      exact ⟨longer + 1, hle.trans (Nat.le_succ longer), .cons hparent hpath⟩

/-- A node on a cycle starts paths of any length. -/
theorem exists_parentPath_of_cycle {node : NodeKey} (hcycle : TransGen g.DependsOn node node)
    (bound : Nat) : ∃ length ≥ bound, g.ParentPath node length := by
  obtain ⟨parent, hparent, hback⟩ := TransGen.head'_iff.1 hcycle
  induction bound with
  | zero => exact ⟨0, le_rfl, .nil node⟩
  | succ bound ih =>
      obtain ⟨length, hlength, hpath⟩ := ih
      obtain ⟨longer, hlonger, hround⟩ := ParentPath.of_reflTransGen hback hpath
      exact ⟨longer + 1, Nat.succ_le_succ (hlength.trans hlonger), .cons hparent hround⟩

theorem HasDepth.not_leadsToCycle {d : Nat} (h : g.HasDepth key d) : ¬ g.LeadsToCycle key := by
  rintro ⟨node, hreach, hcycle⟩
  obtain ⟨length, hlength, hpath⟩ := exists_parentPath_of_cycle hcycle (d + 1)
  obtain ⟨longer, hlonger, hwhole⟩ := ParentPath.of_reflTransGen hreach hpath
  have : longer ≤ d := h.2 hwhole
  omega

/-- A node without a depth has a parent without one, and so on: among finitely many nodes, one comes
back. -/
theorem leadsToCycle_of_not_hasDepth (h : ¬ ∃ d, g.HasDepth key d) : g.LeadsToCycle key := by
  have hstep : ∀ node : {node // ¬ ∃ d, g.HasDepth node d},
      ∃ next : {node // ¬ ∃ d, g.HasDepth node d}, g.DependsOn node next := by
    rintro ⟨node, hnode⟩
    by_contra! hcontra
    refine hnode (exists_hasDepth_of_parents fun parent hparent => ?_)
    by_contra hnone
    exact hcontra ⟨parent, hnone⟩ hparent
  choose next hnext using hstep
  let walk : ℕ → {node // ¬ ∃ d, g.HasDepth node d} := fun n => next^[n] ⟨key, h⟩
  have hwalk : ∀ n, g.DependsOn (walk n) (walk (n + 1)) := fun n => by
    rw [show walk (n + 1) = next (walk n) from Function.iterate_succ_apply' next n _]
    exact hnext (walk n)
  have hreach : ∀ m n, m ≤ n → ReflTransGen g.DependsOn (walk m) (walk n) := by
    intro m n hmn
    induction n, hmn using Nat.le_induction with
    | base => exact .refl
    | succ n _ ih => exact ih.tail (hwalk n)
  have hback : ∀ m n, m < n → walk m = walk n → g.LeadsToCycle key := fun m n hmn heq =>
    ⟨walk m, hreach 0 m (Nat.zero_le m), by
      have := TransGen.head' (hwalk m) (hreach (m + 1) n hmn)
      rwa [← heq] at this⟩
  obtain ⟨m, n, hne, heq⟩ := Finite.exists_ne_map_eq_of_infinite fun n =>
    (⟨walk n, g.lt_of_mem_parentsOf (hwalk n)⟩ : Fin g.nodes.size)
  have heq : walk m = walk n := Subtype.ext (Fin.mk.inj heq)
  rcases Nat.lt_or_gt_of_ne hne with hlt | hgt
  · exact hback m n hlt heq
  · exact hback n m hgt heq.symm

theorem exists_hasDepth_iff : (∃ d, g.HasDepth key d) ↔ ¬ g.LeadsToCycle key :=
  ⟨fun ⟨_, h⟩ => h.not_leadsToCycle, fun h => not_imp_comm.1 leadsToCycle_of_not_hasDepth h⟩

end JobGraph.Graph
