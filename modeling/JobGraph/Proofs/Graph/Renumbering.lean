import JobGraph.Proofs.Graph.RoutedEdges
import JobGraph.Proofs.Graph.StrictLayering
import Mathlib.Logic.Equiv.Defs

/-!
# Graphs that differ in the order of their nodes

The keys of a graph tell the order in which its nodes were created, and a layering looks at that
order: it ranks by it, releases by it and compacts by it.  But what it settles, it settles by the
edges alone.  Two graphs that are the same up to their keys, `Renumbered`, get the same layers.

* **Depths and cycles.**  Paths are carried over edge by edge.
* **Layers.**  A node is placed just below its lowest child, and without placed children on the layer
  of its depth.  So the layers agree from the top down.
* **Counts.**  How many nodes were moved and how many bends the long edges have are sums over nodes
  and edges, which do not depend on the order.
-/

namespace JobGraph.Graph

open Relation

open scoped List

variable {α : Type} {g g' : Graph α} {σ : Equiv.Perm NodeKey}

/-- `g'` is `g` with other keys for the nodes, and with the edges of each node in another order. -/
structure Renumbered (σ : Equiv.Perm NodeKey) (g g' : Graph α) : Prop where
  lt_size_iff : ∀ key, σ key < g'.nodes.size ↔ key < g.nodes.size
  idOf_eq : ∀ key, g'.idOf (σ key) = g.idOf key
  find?_eq : ∀ id, g'.find? id = (g.find? id).map σ
  parentsOf_perm : ∀ key, (g'.parentsOf (σ key)).Perm ((g.parentsOf key).map σ)

/-- Keys that belong together, listed without repetitions, are the same but for the order. -/
theorem perm_map_of_mem_iff {keys keys' : List NodeKey} (hnodup : keys.Nodup)
    (hnodup' : keys'.Nodup) (hmem : ∀ key, σ key ∈ keys' ↔ key ∈ keys) :
    keys'.Perm (keys.map σ) := by
  refine (List.perm_ext_iff_of_nodup hnodup' (hnodup.map σ.injective)).2 fun key => ?_
  obtain ⟨key, rfl⟩ := σ.surjective key
  rw [hmem, List.mem_map_of_injective σ.injective]

theorem find?_of_clearLayout_eq (h : g'.clearLayout = g.clearLayout) : g'.find? = g.find? := by
  have hfind : g'.clearLayout.find? = g.clearLayout.find? := by rw [h]
  exact hfind

/-- The layers of the children of a node, where they are placed. -/
def childLayers (g : Graph α) (key : NodeKey) : Set Nat :=
  {high | ∃ child ∈ g.childrenOf key, g.compacted.layerOf child = some high}

/-- The depth of a node and the layers of its children tell its own. -/
theorem layerOf_compacted_iff (hlinked : Linked g) (hunrouted : g.routed = false) {key : NodeKey}
    (hkey : key ∈ g.compacted.ranking) {layer : Nat} :
    g.compacted.layerOf key = some layer ↔
      g.childLayers key = ∅ ∧ g.depth key = layer ∨ IsLeast (g.childLayers key) (layer + 1) := by
  by_cases hnone : g.childLayers key = ∅
  · have hchildren : ∀ child ∈ g.childrenOf key, g.compacted.layerOf child = none := by
      intro child hchild
      rw [Option.eq_none_iff_forall_ne_some]
      intro high hhigh
      exact (Set.eq_empty_iff_forall_notMem.1 hnone high) ⟨child, hchild, hhigh⟩
    rw [layerOf_compacted_of_no_child hlinked hunrouted hkey hchildren, hnone, Option.some.injEq]
    simp [IsLeast]
  · obtain ⟨high, child, hchild, hhigh⟩ := Set.nonempty_iff_ne_empty.2 hnone
    obtain ⟨low, hleast, hlow⟩ := layerOf_compacted_of_child hlinked hunrouted hkey hchild
      (by rw [hhigh]; rfl)
    rw [hlow, Option.some.injEq]
    constructor
    · rintro rfl
      exact .inr hleast
    · rintro (⟨hempty, -⟩ | hother)
      · exact absurd hempty hnone
      · exact Nat.succ.inj (hleast.unique hother)

namespace Renumbered

theorem symm (h : Renumbered σ g g') : Renumbered σ.symm g' g where
  lt_size_iff key := by rw [← h.lt_size_iff, σ.apply_symm_apply]
  idOf_eq key := by rw [← h.idOf_eq, σ.apply_symm_apply]
  find?_eq id := by
    rw [h.find?_eq, Option.map_map, Equiv.symm_comp_self, Option.map_id]
    rfl
  parentsOf_perm key := by
    have hperm := (h.parentsOf_perm (σ.symm key)).map σ.symm
    rw [σ.apply_symm_apply, List.map_map, Equiv.symm_comp_self, List.map_id] at hperm
    exact hperm.symm

theorem of_clearLayout_eq {h₀ h₀' : Graph α} (h : Renumbered σ g g')
    (heq : h₀.clearLayout = g.clearLayout) (heq' : h₀'.clearLayout = g'.clearLayout) :
    Renumbered σ h₀ h₀' := by
  refine ⟨?_, ?_, ?_, ?_⟩
  · rw [size_of_clearLayout_eq heq, size_of_clearLayout_eq heq']
    exact h.lt_size_iff
  · rw [idOf_of_clearLayout_eq heq, idOf_of_clearLayout_eq heq']
    exact h.idOf_eq
  · rw [find?_of_clearLayout_eq heq, find?_of_clearLayout_eq heq']
    exact h.find?_eq
  · rw [parentsOf_of_clearLayout_eq heq, parentsOf_of_clearLayout_eq heq']
    exact h.parentsOf_perm

/-! ## Depths and cycles -/

theorem dependsOn_iff (h : Renumbered σ g g') (key parent : NodeKey) :
    g'.DependsOn (σ key) (σ parent) ↔ g.DependsOn key parent := by
  rw [DependsOn, (h.parentsOf_perm key).mem_iff, List.mem_map_of_injective σ.injective]
  rfl

theorem parentPath (h : Renumbered σ g g') {key : NodeKey} {length : Nat}
    (hpath : g.ParentPath key length) : g'.ParentPath (σ key) length := by
  induction hpath with
  | nil key => exact .nil (σ key)
  | cons hparent _ ih => exact .cons ((h.dependsOn_iff _ _).2 hparent) ih

theorem parentPath_iff (h : Renumbered σ g g') (key : NodeKey) (length : Nat) :
    g'.ParentPath (σ key) length ↔ g.ParentPath key length := by
  refine ⟨fun hpath => ?_, h.parentPath⟩
  have := h.symm.parentPath hpath
  rwa [σ.symm_apply_apply] at this

theorem hasDepth_iff (h : Renumbered σ g g') (key : NodeKey) (depth : Nat) :
    g'.HasDepth (σ key) depth ↔ g.HasDepth key depth := by
  simp only [HasDepth, h.parentPath_iff]

theorem depth_eq (h : Renumbered σ g g') (key : NodeKey) : g'.depth (σ key) = g.depth key := by
  simp only [depth, h.parentPath_iff]

theorem transGen (h : Renumbered σ g g') {key node : NodeKey}
    (hreach : TransGen g.DependsOn key node) : TransGen g'.DependsOn (σ key) (σ node) :=
  hreach.lift σ fun _ _ hdepends => (h.dependsOn_iff _ _).2 hdepends

theorem onCycle_iff (h : Renumbered σ g g') (key : NodeKey) :
    g'.OnCycle (σ key) ↔ g.OnCycle key := by
  refine ⟨fun hcycle => ?_, h.transGen⟩
  have := h.symm.transGen hcycle
  rwa [σ.symm_apply_apply] at this

theorem leadsToCycle_iff (h : Renumbered σ g g') (key : NodeKey) :
    g'.LeadsToCycle (σ key) ↔ g.LeadsToCycle key := by
  simp only [← not_iff_not (a := g'.LeadsToCycle _), ← exists_hasDepth_iff, h.hasDepth_iff]

theorem perm_map_idOf (h : Renumbered σ g g') {keys keys' : List NodeKey}
    (hperm : keys'.Perm (keys.map σ)) : (keys'.map g'.idOf).Perm (keys.map g.idOf) := by
  have hids := hperm.map g'.idOf
  rwa [List.map_map, show g'.idOf ∘ σ = g.idOf from funext h.idOf_eq] at hids

end Renumbered

/-! ## Layers -/

/-- Two graphs without waypoints, of which one has the nodes of the other in another order. -/
structure Shuffled (σ : Equiv.Perm NodeKey) (g g' : Graph α) : Prop extends Renumbered σ g g' where
  linked : Linked g
  linked' : Linked g'
  unrouted : g.routed = false
  unrouted' : g'.routed = false

namespace Shuffled

section Layers

variable (h : Shuffled σ g g')

include h

theorem mem_childrenOf_iff (key child : NodeKey) :
    σ child ∈ g'.childrenOf (σ key) ↔ child ∈ g.childrenOf key := by
  rw [h.linked'.mem_childrenOf_iff, h.linked.mem_childrenOf_iff]
  exact h.dependsOn_iff child key

theorem mem_realKeys_iff (key : NodeKey) : σ key ∈ g'.realKeys ↔ key ∈ g.realKeys := by
  rw [h.linked'.mem_realKeys_iff h.unrouted', h.linked.mem_realKeys_iff h.unrouted, h.lt_size_iff]

theorem mem_ranking_iff (key : NodeKey) :
    σ key ∈ g'.compacted.ranking ↔ key ∈ g.compacted.ranking := by
  rw [mem_ranking_compacted_iff h.linked' h.unrouted',
    mem_ranking_compacted_iff h.linked h.unrouted, h.lt_size_iff]
  simp only [h.hasDepth_iff]

theorem isSome_layerOf_iff (key : NodeKey) :
    (g'.compacted.layerOf (σ key)).isSome ↔ (g.compacted.layerOf key).isSome := by
  rw [isSome_layerOf_compacted_iff h.linked' h.unrouted',
    isSome_layerOf_compacted_iff h.linked h.unrouted, h.mem_ranking_iff]

/-- A child that is on the same layer in both graphs, if it is placed. -/
theorem childLayers_eq {key : NodeKey} (hchildren : ∀ child ∈ g.childrenOf key, ∀ high,
      g.compacted.layerOf child = some high → g'.compacted.layerOf (σ child) = some high) :
    g'.childLayers (σ key) = g.childLayers key := by
  ext high
  constructor
  · rintro ⟨child, hchild, hhigh⟩
    obtain ⟨child, rfl⟩ := σ.surjective child
    rw [h.mem_childrenOf_iff] at hchild
    have hsome := (h.isSome_layerOf_iff child).1 (by rw [hhigh]; rfl)
    obtain ⟨other, hother⟩ := Option.isSome_iff_exists.1 hsome
    rw [hchildren child hchild other hother, Option.some.injEq] at hhigh
    exact ⟨child, hchild, hhigh ▸ hother⟩
  · rintro ⟨child, hchild, hhigh⟩
    exact ⟨σ child, (h.mem_childrenOf_iff key child).2 hchild, hchildren child hchild high hhigh⟩

/-- From the top down, a node is on the same layer in both graphs: its children are. -/
theorem layerOf_of_layerOf {key : NodeKey} {layer : Nat}
    (hlayer : g.compacted.layerOf key = some layer) :
    g'.compacted.layerOf (σ key) = some layer := by
  have hplaced := placed_compacted h.linked h.unrouted
  obtain ⟨above, habove⟩ : ∃ above, layer + above = g.compacted.layers.length :=
    ⟨_, Nat.add_sub_cancel' (hplaced.lt_length_of_layerOf hlayer).le⟩
  induction above using Nat.strong_induction_on generalizing key layer with
  | _ above ih =>
      have hchildren : ∀ child ∈ g.childrenOf key, ∀ high,
          g.compacted.layerOf child = some high → g'.compacted.layerOf (σ child) = some high := by
        intro child hchild high hhigh
        obtain ⟨low, hlow, hparent⟩ :=
          layer_lt_of_parent h.linked h.unrouted hhigh (h.linked.mem_childrenOf_iff.1 hchild)
        rw [hlayer, Option.some.injEq] at hparent
        have hbound := hplaced.lt_length_of_layerOf hhigh
        exact ih (g.compacted.layers.length - high) (by omega) hhigh (by omega)
      have hkey := (isSome_layerOf_compacted_iff h.linked h.unrouted key).1 (by rw [hlayer]; rfl)
      have hkey' := (h.mem_ranking_iff key).2 hkey
      rw [layerOf_compacted_iff h.linked' h.unrouted' hkey', h.depth_eq, h.childLayers_eq hchildren,
        ← layerOf_compacted_iff h.linked h.unrouted hkey]
      exact hlayer

theorem layerOf_eq (key : NodeKey) :
    g'.compacted.layerOf (σ key) = g.compacted.layerOf key := by
  cases hlayer : g.compacted.layerOf key with
  | some layer => exact h.layerOf_of_layerOf hlayer
  | none =>
      rw [← Option.not_isSome_iff_eq_none, h.isSome_layerOf_iff, hlayer]
      exact Bool.false_ne_true

/-! ## Counts -/

theorem perm_ranking : g'.compacted.ranking.Perm (g.compacted.ranking.map σ) :=
  perm_map_of_mem_iff (nodup_ranking_compacted h.linked h.unrouted)
    (nodup_ranking_compacted h.linked' h.unrouted')
    h.mem_ranking_iff

/-- A number of layers is told by the longest path. -/
theorem layerCount_eq : g'.compacted.layers.length = g.compacted.layers.length := by
  refine eq_of_forall_lt_iff fun length => ?_
  rw [← exists_parentPath_iff_lt_length h.linked' h.unrouted',
    ← exists_parentPath_iff_lt_length h.linked h.unrouted, σ.surjective.exists]
  simp only [h.mem_ranking_iff, h.parentPath_iff]

/-- As many nodes were moved: those that are not on the layer of their depth. -/
theorem moved_eq : g'.levelled.compact.2 = g.levelled.compact.2 := by
  rw [moved_compacted h.linked' h.unrouted', moved_compacted h.linked h.unrouted,
    (h.perm_ranking).countP_eq, List.countP_map,
    depth_compacted h.linked' h.unrouted', depth_compacted h.linked h.unrouted]
  refine List.countP_congr fun key _ => ?_
  simp only [Function.comp_apply, h.layerOf_eq, h.depth_eq]

/-- The same nodes are left over. -/
theorem perm_unplaced : g'.levelled.unplaced.Perm (g.levelled.unplaced.map σ) := by
  refine perm_map_of_mem_iff ((nodup_realKeys h.linked).filter _)
    ((nodup_realKeys h.linked').filter _) fun key => ?_
  rw [mem_unplaced_levelled_iff h.linked' h.unrouted', mem_unplaced_levelled_iff h.linked h.unrouted,
    h.mem_realKeys_iff, h.leadsToCycle_iff]

theorem unplaced_eq_nil_iff : g'.levelled.unplaced = [] ↔ g.levelled.unplaced = [] := by
  rw [← List.perm_nil, h.perm_unplaced.congr_left, List.perm_nil, List.map_eq_nil_iff]

/-- The same nodes are named as lying on cycles. -/
theorem perm_cycleIds (hne : g.levelled.unplaced ≠ []) :
    (g'.levelled.cycleIds g'.levelled.unplaced).Perm (g.levelled.cycleIds g.levelled.unplaced) := by
  have hne' : g'.levelled.unplaced ≠ [] := fun hnil => hne (h.unplaced_eq_nil_iff.1 hnil)
  obtain ⟨members, hids, hreported⟩ := cyclesReported_of_unplaced_ne_nil h.linked h.unrouted hne
  obtain ⟨members', hids', hreported'⟩ := cyclesReported_of_unplaced_ne_nil h.linked' h.unrouted' hne'
  rw [hids, hids']
  refine h.perm_map_idOf (perm_map_of_mem_iff hreported.nodup hreported'.nodup fun key => ?_)
  rw [hreported'.mem_iff, hreported.mem_iff, h.onCycle_iff]

end Layers

end Shuffled

/-! ## Bends -/

/-- An edge between other keys. -/
def Edge.renumber (σ : NodeKey → NodeKey) (edge : Edge) : Edge :=
  ⟨σ edge.dependent, σ edge.parent⟩

/-- How many waypoints the long edges of a graph call for. -/
def bends (g : Graph α) : Nat :=
  ((g.edges.filter g.IsLong).map fun edge => g.drop edge - 1).sum

/-- A routing adds as many waypoints as long edges call for. -/
theorem routeLongEdges_bends (h : Consistent g) (hsorted : g.sorted = true)
    (hunrouted : g.routed = false) :
    g.routeLongEdges.2 = .ok g.bends ∧ g.routeLongEdges.1.waypointKeys.length = g.bends := by
  obtain ⟨state, chains, heq, hsplitting, hperm⟩ := exists_splitting_routeLongEdges h hsorted hunrouted
  have hcount : state.2 = g.bends := hsplitting.count_eq_sum hperm
  have hwaypoints : state.1.waypointKeys = chains.flatMap Chain.waypoints := by
    rw [hsplitting.waypointKeys_eq]
    show g.waypointKeys ++ _ = _
    rw [h.waypointKeys_of_unrouted hunrouted, List.nil_append]
  rw [heq, hwaypoints, ← hcount, hsplitting.count_eq]
  exact ⟨rfl, rfl⟩

namespace Renumbered

theorem perm_edges (h : Renumbered σ g g') : g'.edges.Perm (g.edges.map (Edge.renumber σ)) := by
  have hkeys : g'.keys.Perm (g.keys.map σ) :=
    perm_map_of_mem_iff g.nodup_keys g'.nodup_keys fun key => by
      rw [mem_keys, mem_keys, h.lt_size_iff]
  calc g'.edges
      _ ~ (g.keys.map σ).flatMap fun key => (g'.parentsOf key).map (Edge.mk key) :=
        hkeys.flatMap_right _
      _ = g.keys.flatMap fun key => (g'.parentsOf (σ key)).map (Edge.mk (σ key)) :=
        List.flatMap_map ..
      _ ~ g.keys.flatMap fun key => ((g.parentsOf key).map (Edge.mk key)).map (Edge.renumber σ) := by
        refine List.Perm.flatMap_left _ fun key _ => ?_
        have hedges := (h.parentsOf_perm key).map (Edge.mk (σ key))
        rw [List.map_map] at hedges
        rwa [List.map_map]
      _ = g.edges.map (Edge.renumber σ) := (List.map_flatMap ..).symm

/-- Where the layers agree, long edges call for as many waypoints. -/
theorem bends_eq (h : Renumbered σ g g') (hlayer : ∀ key, g'.layerOf (σ key) = g.layerOf key) :
    g'.bends = g.bends := by
  have hdrop : ∀ edge, g'.drop (Edge.renumber σ edge) = g.drop edge := by
    intro edge
    rw [drop, drop, Edge.renumber, hlayer, hlayer]
  have hlong : ∀ edge, g'.IsLong (Edge.renumber σ edge) ↔ g.IsLong edge := by
    intro edge
    rw [IsLong, IsLong, hdrop, Edge.renumber, hlayer, hlayer]
  rw [bends, bends, ((h.perm_edges.filter _).map _).sum_eq, List.filter_map, List.map_map]
  simp only [Function.comp_def, hdrop, hlong]

end Renumbered

end JobGraph.Graph
