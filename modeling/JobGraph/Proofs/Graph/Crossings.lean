import JobGraph.Proofs.Graph.Inversions
import JobGraph.Proofs.Graph.Sweeps
import Mathlib.Algebra.BigOperators.Group.List.Basic
import Mathlib.Algebra.Order.GroupWithZero.Basic
import Mathlib.Algebra.Order.Ring.Rat
import Mathlib.Data.List.Count
import Mathlib.Data.Prod.Basic

/-!
# What an ordering does to crossings

An ordering moves nodes towards the mean places of their neighbours.  This is a heuristic, and it may
add crossings in two ways.

* Means do not tell which of two nodes with three neighbours should come first.
* A sweep looks at one side of a layer only.  It may spoil the other side, and a node without
  neighbours on the side that it looks at may come to stand anywhere.

So it helps where neither can happen, `Eased`: between two layers whose nodes have at most two
neighbours each, there are no more crossings than before.  With more layers what is left is true of
one layer at a time and of the side that the last sweep looked at.  There, layers whose nodes have at
most two neighbours just beside them are in the cheapest of all orders.

The crossings below a layer can be seen from it or from the layer below, as a `crossingCost` of the
order of either layer.
-/

namespace JobGraph.Graph

variable {α : Type} {g g' : Graph α} {neighbours : NodeKey → List NodeKey} {layer other : Nat}

/-! ## Crossings seen from one layer -/

/-- The number that stands for the place of a node. -/
def placeNumber (g : Graph α) (key : NodeKey) : Nat :=
  (placeIn g.layers key).getD 0

/-- The places of those neighbours that are on a layer. -/
def facing (g : Graph α) (neighbours : NodeKey → List NodeKey) (other : Nat) (key : NodeKey) :
    List Nat :=
  ((neighbours key).filter fun neighbour => g.layerOf neighbour = some other).map g.placeNumber

/-- The crossings between a layer and another one, as a cost of the order of the layer. -/
def crossingCost (g : Graph α) (neighbours : NodeKey → List NodeKey) (layer other : Nat) : Nat :=
  pairCost (fun key key' =>
    inversions (g.facing neighbours other key) (g.facing neighbours other key'))
    (g.layers[layer]?.getD [])

theorem Placed.placeNumber_eq (h : Placed g) {key : NodeKey} (hkey : g.layerOf key = some layer) :
    g.placeNumber key = (g.layers[layer]?.getD []).idxOf key := by
  have hsome : ((g.layers[layer]?.getD []).idxOf? key).isSome :=
    List.isSome_idxOf?.2 (h.mem_layer_iff.2 hkey)
  obtain ⟨place, hplace⟩ := Option.isSome_iff_exists.1 hsome
  rw [placeNumber, h.placeIn_eq_placeOf?, placeOf?, hkey, Option.bind_some,
    List.idxOf_eq_getD_idxOf?, hplace, Option.getD_some, Option.getD_some]

/-- The nodes of a layer stand by their places. -/
theorem Placed.pairwise_placeNumber (h : Placed g) (layer : Nat) :
    (g.layers[layer]?.getD []).Pairwise fun key key' => g.placeNumber key < g.placeNumber key' := by
  have hindices : (g.layers[layer]?.getD []).Pairwise fun key key' =>
      (g.layers[layer]?.getD []).idxOf key < (g.layers[layer]?.getD []).idxOf key' := by
    rw [List.pairwise_iff_getElem]
    intro i j hi hj hlt
    rwa [(h.nodup_layer layer).idxOf_getElem, (h.nodup_layer layer).idxOf_getElem]
  refine hindices.imp_of_mem fun hkey hkey' hlt => ?_
  rwa [h.placeNumber_eq (h.mem_layer_iff.1 hkey), h.placeNumber_eq (h.mem_layer_iff.1 hkey')]

/-- The crossings below a layer, seen from it. -/
theorem Placed.crossingPairs_segments (h : Placed g) (layer : Nat) :
    crossingPairs (g.segments layer) = g.crossingCost g.parentsOf layer (layer - 1) := by
  rw [crossingCost, ← crossingPairs_bundles g.placeNumber _ (h.pairwise_placeNumber layer), segments]
  simp only [facing, List.map_map]
  rfl

/-- How often a pair is among the pairs of keys and what belongs to them. -/
theorem count_flatMap_mk {β γ : Type} [DecidableEq β] [DecidableEq γ] (parts : β → List γ)
    {keys : List β} (hnodup : keys.Nodup) (key : β) (item : γ) :
    (keys.flatMap fun key => (parts key).map (Prod.mk key)).count (key, item) =
      if key ∈ keys then (parts key).count item else 0 := by
  induction keys with
  | nil => rfl
  | cons first rest ih =>
      obtain ⟨hfirst, hrest⟩ := List.nodup_cons.1 hnodup
      rw [List.flatMap_cons, List.count_append, ih hrest]
      by_cases hkey : key = first
      · subst hkey
        rw [List.count_map_of_injective _ _ (Prod.mk_right_injective key), if_neg hfirst,
          if_pos List.mem_cons_self, Nat.add_zero]
      · have hnone : ((parts first).map (Prod.mk first)).count (key, item) = 0 := by
          rw [List.count_eq_zero]
          intro hmem
          obtain ⟨_, -, heq⟩ := List.mem_map.1 hmem
          exact hkey (congrArg Prod.fst heq).symm
        rw [hnone, Nat.zero_add]
        simp only [List.mem_cons, hkey, false_or]

theorem count_filter_eq_ite {β : Type} [DecidableEq β] (keep : β → Bool) (list : List β) (item : β) :
    (list.filter keep).count item = if keep item then list.count item else 0 := by
  split
  · rename_i hkeep
    exact List.count_filter hkeep
  · rename_i hkeep
    exact List.count_eq_zero.2 fun hmem => hkeep (List.mem_filter.1 hmem).2

/-- The edges between two layers, by their upper and by their lower nodes. -/
theorem Consistent.perm_between (h : Consistent g) (upper lower : Nat) :
    ((g.layers[upper]?.getD []).flatMap fun key =>
        ((g.parentsOf key).filter fun parent => g.layerOf parent = some lower).map
          (Prod.mk key)).Perm
      (((g.layers[lower]?.getD []).flatMap fun key =>
        ((g.childrenOf key).filter fun child => g.layerOf child = some upper).map
          (Prod.mk key)).map Prod.swap) := by
  rw [List.perm_iff_count]
  rintro ⟨dependent, parent⟩
  have hswap : ∀ pairs : List (NodeKey × NodeKey),
      (pairs.map Prod.swap).count (dependent, parent) = pairs.count (parent, dependent) :=
    fun pairs => List.count_map_of_injective pairs _ Prod.swap_injective (parent, dependent)
  rw [hswap, count_flatMap_mk _ (h.nodup_layer upper), count_flatMap_mk _ (h.nodup_layer lower)]
  -- an edge counts if its ends are on the two layers, and it is kept equally often at both ends
  by_cases hdependent : g.layerOf dependent = some upper <;>
    by_cases hparent : g.layerOf parent = some lower <;>
    simp [h.mem_layer_iff, hdependent, hparent, count_filter_eq_ite, h.count_parentsOf]

/-- The crossings below a layer, seen from the layer below it. -/
theorem Consistent.crossingPairs_segments_succ (h : Consistent g) (layer : Nat) :
    crossingPairs (g.segments (layer + 1)) = g.crossingCost g.childrenOf layer (layer + 1) := by
  let places : NodeKey × NodeKey → Nat × Nat := Prod.map g.placeNumber g.placeNumber
  have hsegments : g.segments (layer + 1) = ((g.layers[layer + 1]?.getD []).flatMap fun key =>
      ((g.parentsOf key).filter fun parent => g.layerOf parent = some layer).map
        (Prod.mk key)).map places := by
    rw [List.map_flatMap]
    simp only [List.map_map]
    rfl
  have hbundles : (((g.layers[layer]?.getD []).flatMap fun key =>
        ((g.childrenOf key).filter fun child => g.layerOf child = some (layer + 1)).map
          (Prod.mk key)).map Prod.swap).map places =
      ((g.layers[layer]?.getD []).flatMap fun key =>
        (g.facing g.childrenOf (layer + 1) key).map (Prod.mk (g.placeNumber key))).map
          Prod.swap := by
    simp only [List.map_flatMap, List.map_map, facing]
    rfl
  rw [hsegments, crossingPairs_perm ((h.perm_between (layer + 1) layer).map places), hbundles,
    crossingPairs_swap, crossingPairs_bundles g.placeNumber _ (h.pairwise_placeNumber layer)]
  rfl

/-! ## Orders by means -/

/-- No node of a layer has more neighbours with a layer than so many. -/
def Few (g : Graph α) (neighbours : NodeKey → List NodeKey) (most layer : Nat) : Prop :=
  ∀ key, g.layerOf key = some layer →
    ((neighbours key).countP fun neighbour => (g.layerOf neighbour).isSome) ≤ most

instance (g : Graph α) (neighbours : NodeKey → List NodeKey) (most layer : Nat) :
    Decidable (g.Few neighbours most layer) :=
  decidable_of_iff (∀ key ∈ g.keys, g.layerOf key = some layer →
      ((neighbours key).countP fun neighbour => (g.layerOf neighbour).isSome) ≤ most)
    ⟨fun h key hkey => h key ((mem_keys g key).2 (g.lt_of_layerOf hkey)) hkey,
      fun h key _ hkey => h key hkey⟩

/-- The neighbours of a layer that have a layer are on the other one. -/
def Beside (g : Graph α) (neighbours : NodeKey → List NodeKey) (layer other : Nat) : Prop :=
  ∀ key, g.layerOf key = some layer → ∀ neighbour ∈ neighbours key,
    ∀ found ∈ g.layerOf neighbour, found = other

theorem Placed.filterMap_placeOf? (h : Placed g) (keys : List NodeKey) :
    keys.filterMap g.placeOf? =
      (keys.filter fun key => (g.layerOf key).isSome).map g.placeNumber := by
  induction keys with
  | nil => rfl
  | cons key rest ih =>
      cases hlayer : g.layerOf key with
      | none =>
          have hplace : g.placeOf? key = none := by rw [placeOf?, hlayer, Option.bind_none]
          rw [List.filterMap_cons_none hplace, ih, List.filter_cons_of_neg (by simp [hlayer])]
      | some layer =>
          have hplace : g.placeOf? key = some (g.placeNumber key) := by
            rw [← h.placeIn_eq_placeOf?]
            exact h.placeIn_eq hlayer
          rw [List.filterMap_cons_some hplace, ih, List.filter_cons_of_pos (by simp [hlayer]),
            List.map_cons]

/-- A comparison of means as one of products, where a mean of nothing says nothing. -/
theorem mul_le_of_meanPlace_le {keys keys' : List NodeKey}
    (hle : keys.filterMap g.placeOf? ≠ [] → keys'.filterMap g.placeOf? ≠ [] →
      g.meanPlace keys ≤ g.meanPlace keys') :
    (keys.filterMap g.placeOf?).sum * (keys'.filterMap g.placeOf?).length ≤
      (keys'.filterMap g.placeOf?).sum * (keys.filterMap g.placeOf?).length := by
  by_cases hnil : keys.filterMap g.placeOf? = []
  · simp [hnil]
  by_cases hnil' : keys'.filterMap g.placeOf? = []
  · simp [hnil']
  have hpos : (0 : ℚ) < (keys.filterMap g.placeOf?).length :=
    Nat.cast_pos.2 (List.length_pos_iff.2 hnil)
  have hpos' : (0 : ℚ) < (keys'.filterMap g.placeOf?).length :=
    Nat.cast_pos.2 (List.length_pos_iff.2 hnil')
  have hmeans := hle hnil hnil'
  rw [meanPlace, meanPlace, div_le_div_iff₀ hpos hpos'] at hmeans
  exact_mod_cast hmeans

theorem Placed.length_filterMap_placeOf? (h : Placed g) (keys : List NodeKey) :
    (keys.filterMap g.placeOf?).length = keys.countP fun key => (g.layerOf key).isSome := by
  rw [h.filterMap_placeOf?, List.length_map, List.countP_eq_length_filter]

/-- Nodes of a layer in mean order, with their means as fractions. -/
theorem Placed.mul_le_of_inMeanOrder (h : Placed g) (hmean : g.InMeanOrder neighbours layer) :
    (g.layers[layer]?.getD []).Pairwise fun key key' =>
      ((neighbours key).filterMap g.placeOf?).sum *
          ((neighbours key').filterMap g.placeOf?).length ≤
        ((neighbours key').filterMap g.placeOf?).sum *
          ((neighbours key).filterMap g.placeOf?).length := by
  have hany : ∀ keys : List NodeKey, keys.filterMap g.placeOf? ≠ [] →
      keys.any fun key => (g.layerOf key).isSome := by
    intro keys hne
    rw [h.filterMap_placeOf?, ne_eq, List.map_eq_nil_iff, List.filter_eq_nil_iff] at hne
    simpa [Option.isSome_iff_ne_none] using hne
  refine (List.pairwise_filter.1 hmean).imp fun hle => ?_
  exact mul_le_of_meanPlace_le fun hne hne' => hle (hany _ hne) (hany _ hne')

theorem Placed.facing_eq (h : Placed g) {key : NodeKey}
    (hbeside : ∀ neighbour ∈ neighbours key, ∀ found ∈ g.layerOf neighbour, found = other) :
    g.facing neighbours other key = (neighbours key).filterMap g.placeOf? := by
  rw [h.filterMap_placeOf?, facing]
  congr 1
  apply List.filter_congr
  intro neighbour hneighbour
  cases hlayer : g.layerOf neighbour with
  | none => simp
  | some found => simp [hbeside neighbour hneighbour found hlayer]

/-- A node with one neighbour that has a layer faces it or nothing. -/
theorem Placed.facing_eq_of_ne_nil (h : Placed g) {key : NodeKey}
    (hfew : ((neighbours key).countP fun neighbour => (g.layerOf neighbour).isSome) ≤ 1)
    (hne : g.facing neighbours other key ≠ []) :
    g.facing neighbours other key = (neighbours key).filterMap g.placeOf? := by
  rw [h.filterMap_placeOf?]
  have hsublist : (g.facing neighbours other key).Sublist
      (((neighbours key).filter fun neighbour => (g.layerOf neighbour).isSome).map
        g.placeNumber) := by
    apply List.Sublist.map
    apply List.monotone_filter_right
    intro neighbour hlayer
    rw [of_decide_eq_true hlayer]
    rfl
  apply hsublist.eq_of_length_le
  rw [List.length_map, ← List.countP_eq_length_filter]
  exact hfew.trans (List.length_pos_iff.2 hne)

/-! ## The cheapest order -/

theorem reordered_set {layers : List (List NodeKey)} {keys : List NodeKey}
    (hperm : (layers[layer]?.getD []).Perm keys) : Reordered layers (layers.set layer keys) := by
  refine ⟨List.length_set, fun found old hold => ?_⟩
  by_cases hfound : layer = found
  · subst hfound
    refine ⟨keys, List.getElem?_set_self (List.getElem?_eq_some_iff.1 hold).1, ?_⟩
    rw [hold, Option.getD_some] at hperm
    exact hperm.symm
  · exact ⟨old, (List.getElem?_set_ne hfound).trans hold, .refl old⟩

/-- The places on another layer are the same after a layer was rearranged. -/
theorem Placed.facing_set (h : Placed g) (hne : layer ≠ other) {keys : List NodeKey}
    (hperm : (g.layers[layer]?.getD []).Perm keys) :
    facing { g with layers := g.layers.set layer keys } neighbours other =
      g.facing neighbours other := by
  have hplaced := h.of_reordered (reordered_set hperm)
  funext key
  apply List.map_congr_left
  intro neighbour hneighbour
  have hlayer : g.layerOf neighbour = some other :=
    of_decide_eq_true (List.mem_filter.1 hneighbour).2
  rw [hplaced.placeNumber_eq hlayer, h.placeNumber_eq hlayer]
  simp only [List.getElem?_set_ne hne]

/-- Nodes with at most two neighbours, all on one other layer, are in the cheapest order if they are
in mean order. -/
theorem Placed.crossingCost_le_of_perm (h : Placed g) (hmean : g.InMeanOrder neighbours layer)
    (hne : layer ≠ other) (hfew : g.Few neighbours 2 layer)
    (hbeside : g.Beside neighbours layer other) {keys : List NodeKey}
    (hperm : (g.layers[layer]?.getD []).Perm keys) :
    g.crossingCost neighbours layer other ≤
      crossingCost { g with layers := g.layers.set layer keys } neighbours layer other := by
  have hkeys : (g.layers.set layer keys)[layer]?.getD [] = keys := by
    by_cases hlt : layer < g.layers.length
    · rw [List.getElem?_set_self hlt, Option.getD_some]
    · rw [List.getElem?_eq_none (Nat.not_lt.1 hlt), Option.getD_none] at hperm
      rw [List.set_eq_of_length_le (Nat.not_lt.1 hlt), List.getElem?_eq_none (Nat.not_lt.1 hlt),
        Option.getD_none, hperm.nil_eq]
  have hcost : crossingCost { g with layers := g.layers.set layer keys } neighbours layer other =
      pairCost (fun key key' => inversions (g.facing neighbours other key)
        (g.facing neighbours other key')) keys := by
    rw [crossingCost, h.facing_set hne hperm]
    simp only [hkeys]
  rw [hcost]
  refine pairCost_le_of_perm ?_ hperm
  refine (h.mul_le_of_inMeanOrder hmean).imp_of_mem fun {key key'} hkey hkey' hle => ?_
  have hlayer := h.mem_layer_iff.1 hkey
  have hlayer' := h.mem_layer_iff.1 hkey'
  rw [h.facing_eq (hbeside key hlayer), h.facing_eq (hbeside key' hlayer')]
  apply inversions_le_of_mul_le _ _ hle
  · rw [h.length_filterMap_placeOf?]
    exact hfew key hlayer
  · rw [h.length_filterMap_placeOf?]
    exact hfew key' hlayer'

/-- Nodes with one neighbour do not cross if they are in mean order. -/
theorem Placed.crossingCost_eq_zero (h : Placed g) (hmean : g.InMeanOrder neighbours layer)
    (hfew : g.Few neighbours 1 layer) (other : Nat) :
    g.crossingCost neighbours layer other = 0 := by
  apply pairCost_eq_zero
  refine (h.mul_le_of_inMeanOrder hmean).imp_of_mem fun {key key'} hkey hkey' hle => ?_
  by_cases hnil : g.facing neighbours other key = []
  · rw [hnil, inversions_nil_left]
  by_cases hnil' : g.facing neighbours other key' = []
  · rw [hnil', inversions_nil_right]
  have hone := hfew key (h.mem_layer_iff.1 hkey)
  have hone' := hfew key' (h.mem_layer_iff.1 hkey')
  rw [h.facing_eq_of_ne_nil hone hnil, h.facing_eq_of_ne_nil hone' hnil']
  apply inversions_eq_zero_of_mul_le _ _ hle
  · rwa [h.length_filterMap_placeOf?]
  · rwa [h.length_filterMap_placeOf?]

/-- Sorting a layer of such nodes adds no crossings with the other one. -/
theorem Placed.crossingCost_orderLayer_le (h : Placed g) (hapart : g.Apart neighbours layer layer)
    (hne : layer ≠ other) (hfew : g.Few neighbours 2 layer)
    (hbeside : g.Beside neighbours layer other) :
    crossingCost { g with layers := orderLayer neighbours g.layers layer } neighbours layer other ≤
      g.crossingCost neighbours layer other := by
  have hreordered := reordered_orderLayer neighbours g.layers layer
  have hperm : ((orderLayer neighbours g.layers layer)[layer]?.getD []).Perm
      (g.layers[layer]?.getD []) := by
    rw [orderLayer, List.getElem?_modify]
    cases g.layers[layer]? with
    | none => exact .refl []
    | some keys => simpa using List.mergeSort_perm keys _
  have hback : (orderLayer neighbours g.layers layer).set layer (g.layers[layer]?.getD []) =
      g.layers := by
    apply List.ext_getElem?
    intro found
    rw [List.getElem?_set]
    by_cases hfound : layer = found
    · subst hfound
      cases hkeys : g.layers[layer]? with
      | none => simp [hreordered.length_eq, List.getElem?_eq_none_iff.1 hkeys]
      | some keys => simp [hreordered.length_eq, (List.getElem?_eq_some_iff.1 hkeys).1]
    · rw [if_neg hfound, getElem?_orderLayer_of_ne (Ne.symm hfound)]
  have hle := (h.of_reordered hreordered).crossingCost_le_of_perm
    (h.inMeanOrder_orderLayer hapart) hne hfew hbeside hperm
  rwa [hback] at hle

/-! ## Sweeps over two layers -/

theorem Consistent.of_reordered (h : Consistent g) {layers : List (List NodeKey)}
    (hreordered : Reordered g.layers layers) : Consistent { g with layers } :=
  ⟨h.toLinked.congr rfl rfl rfl rfl rfl rfl rfl, h.toPlaced.of_reordered hreordered⟩

namespace Unedited

variable (h : Unedited g) (hsorted : g.sorted = true)

include h hsorted

/-- Between two layers a sweep adds no crossings if the nodes of the layer that it sorts have at most
two neighbours each. -/
theorem crossingPairs_sweep_le (hlength : g.layers.length = 2) {layers : List (List NodeKey)}
    (hlayers : Reordered g.layers layers) {round : Nat}
    (hup : round % 2 = 0 → g.Few g.parentsOf 2 1) (hdown : round % 2 = 1 → g.Few g.childrenOf 2 0) :
    crossingPairs (segments { g with layers := g.sweep layers round } 1) ≤
      crossingPairs (segments { g with layers } 1) := by
  have hconsistent := h.reachable.consistent
  have hbefore := hconsistent.of_reordered hlayers
  have hafter := hconsistent.of_reordered (hlayers.trans (reordered_sweep g layers round))
  have hlength' : layers.length = 2 := hlayers.length_eq.trans hlength
  rcases Nat.mod_two_eq_zero_or_one round with heven | hodd
  · have hbeside : g.Beside g.parentsOf 1 0 := by
      intro key hkey parent hparent found hfound
      obtain ⟨lower, hlt, hlower⟩ := h.layerOf_parent hsorted hkey hparent
      have := Option.some.inj (hfound.symm.trans hlower)
      omega
    have hsweep : g.sweep layers round = orderLayer g.parentsOf layers 1 := by
      rw [sweep, if_pos heven, sweepUp, hlength']
      rfl
    rw [hafter.toPlaced.crossingPairs_segments, hbefore.toPlaced.crossingPairs_segments, hsweep]
    exact hbefore.toPlaced.crossingCost_orderLayer_le (h.apart_parentsOf hsorted (le_refl 1))
      Nat.one_ne_zero (hup heven) hbeside
  · have hbeside : g.Beside g.childrenOf 0 1 := by
      intro key hkey child hchild found hfound
      have hparent := hconsistent.mem_childrenOf_iff.1 hchild
      obtain ⟨lower, hlt, hlower⟩ := h.layerOf_parent hsorted hfound hparent
      have := Option.some.inj (hkey.symm.trans hlower)
      have := hconsistent.toPlaced.lt_length_of_layerOf hfound
      omega
    have hsweep : g.sweep layers round = orderLayer g.childrenOf layers 0 := by
      rw [sweep, if_neg (by omega), sweepDown, hlength']
      rfl
    rw [hafter.crossingPairs_segments_succ 0, hbefore.crossingPairs_segments_succ 0, hsweep]
    exact hbefore.toPlaced.crossingCost_orderLayer_le (h.apart_childrenOf hsorted (le_refl 0))
      Nat.zero_ne_one (hdown hodd) hbeside

theorem crossingPairs_sweptLayers_le (hlength : g.layers.length = 2) (hup : g.Few g.parentsOf 2 1)
    {sweeps : Nat} (hdown : 2 ≤ sweeps → g.Few g.childrenOf 2 0) :
    crossingPairs (segments { g with layers := g.sweptLayers sweeps } 1) ≤
      crossingPairs (g.segments 1) := by
  induction sweeps with
  | zero => exact le_refl _
  | succ sweeps ih =>
      rw [sweptLayers_succ]
      calc crossingPairs
            (segments { g with layers := g.sweep (g.sweptLayers sweeps) sweeps } 1)
          _ ≤ crossingPairs (segments { g with layers := g.sweptLayers sweeps } 1) := by
            apply h.crossingPairs_sweep_le hsorted hlength (g.reordered_sweptLayers sweeps)
            · exact fun _ => hup
            · exact fun hodd => hdown (by omega)
          _ ≤ crossingPairs (g.segments 1) := ih fun hle => hdown (by omega)

end Unedited

/-! ## Any number of sweeps -/

theorem crossings_of_sorted (hsorted : g.sorted = true) :
    g.crossings = .ok ((List.range' 1 (g.layers.length - 1)).map fun layer =>
      crossingPairs (g.segments layer)).sum := by
  rw [crossings, if_neg (by simp [hsorted])]
  rfl

theorem crossings_eq_zero (hsorted : g.sorted = true)
    (hzero : ∀ layer, 0 < layer → layer < g.layers.length → crossingPairs (g.segments layer) = 0) :
    g.crossings = .ok 0 := by
  rw [crossings_of_sorted hsorted]
  congr 1
  apply List.sum_eq_zero
  intro count hcount
  obtain ⟨layer, hlayer, rfl⟩ := List.mem_map.1 hcount
  rw [List.mem_range'_1] at hlayer
  exact hzero layer (by omega) (by omega)

/-- What some sweeps make of the crossings of a layout. -/
structure Eased (g : Graph α) (sweeps : Nat) (g' : Graph α) : Prop where
  eq_of_idle : sweeps = 0 ∨ g.layers.length < 2 → g' = g
  /-- There are no more crossings than before if there are two layers and no node has more than two
  neighbours on the other one. -/
  crossings_le : g.layers.length = 2 → g.Few g.parentsOf 2 1 → (2 ≤ sweeps → g.Few g.childrenOf 2 0) →
    ∃ before after, g.crossings = .ok before ∧ g'.crossings = .ok after ∧ after ≤ before
  /-- There are none if the last sweep was upward and no node has more than one parent. -/
  crossings_of_odd : sweeps % 2 = 1 → (∀ layer, 0 < layer → g.Few g.parentsOf 1 layer) →
    g'.crossings = .ok 0
  crossings_of_even : sweeps % 2 = 0 → 0 < sweeps → (∀ layer, g.Few g.childrenOf 1 layer) →
    g'.crossings = .ok 0
  /-- After an upward sweep no other order of a layer would do with fewer crossings below it, if its
  nodes have at most two parents each, all of them just below. -/
  cheapest_of_odd : sweeps % 2 = 1 → ∀ layer, 0 < layer → layer < g.layers.length →
    g.Few g.parentsOf 2 layer → g.Beside g.parentsOf layer (layer - 1) →
      ∀ keys, (g'.layers[layer]?.getD []).Perm keys →
        crossingPairs (g'.segments layer) ≤
          crossingPairs (segments { g' with layers := g'.layers.set layer keys } layer)
  cheapest_of_even : sweeps % 2 = 0 → 0 < sweeps → ∀ layer, layer + 1 < g.layers.length →
    g.Few g.childrenOf 2 layer → g.Beside g.childrenOf layer (layer + 1) →
      ∀ keys, (g'.layers[layer]?.getD []).Perm keys →
        crossingPairs (g'.segments (layer + 1)) ≤
          crossingPairs (segments { g' with layers := g'.layers.set layer keys } (layer + 1))

/-- Where nothing is swept, nothing changes. -/
theorem eased_of_lt (hsorted : g.sorted = true) (hlength : g.layers.length < 2) (sweeps : Nat) :
    Eased g sweeps g where
  eq_of_idle _ := rfl
  crossings_le htwo := absurd hlength (by omega)
  crossings_of_odd _ _ := crossings_eq_zero hsorted (by omega)
  crossings_of_even _ _ _ := crossings_eq_zero hsorted (by omega)
  cheapest_of_odd _ layer _ _ := by omega
  cheapest_of_even _ _ layer _ := by omega

theorem Unedited.eased_of_le (h : Unedited g) (hsorted : g.sorted = true)
    (hlength : 2 ≤ g.layers.length) (sweeps : Nat) :
    Eased g sweeps { g with layers := g.sweptLayers sweeps } := by
  have hreordered := g.reordered_sweptLayers sweeps
  have hconsistent := h.reachable.consistent.of_reordered hreordered
  have hplaced := hconsistent.toPlaced
  have hsorted' : ({ g with layers := g.sweptLayers sweeps } : Graph α).sorted = true := hsorted
  refine { eq_of_idle := ?_, crossings_le := ?_, crossings_of_odd := ?_, crossings_of_even := ?_
           cheapest_of_odd := ?_, cheapest_of_even := ?_ }
  · rintro (rfl | hlt)
    · rfl
    · omega
  · intro htwo hup hdown
    refine ⟨_, _, crossings_of_sorted hsorted, crossings_of_sorted hsorted, ?_⟩
    have hle := h.crossingPairs_sweptLayers_le hsorted htwo hup hdown
    simpa [hreordered.length_eq, htwo] using hle
  · intro hodd hfew
    apply crossings_eq_zero hsorted'
    intro layer hpos hlt
    rw [hplaced.crossingPairs_segments]
    exact hplaced.crossingCost_eq_zero
      (h.inMeanOrder_of_odd hsorted hodd hpos (hreordered.length_eq ▸ hlt)) (hfew layer hpos) _
  · intro heven hsweeps hfew
    apply crossings_eq_zero hsorted'
    intro layer hpos hlt
    obtain ⟨below, rfl⟩ : ∃ below, layer = below + 1 := ⟨layer - 1, by omega⟩
    rw [hconsistent.crossingPairs_segments_succ]
    exact hplaced.crossingCost_eq_zero
      (h.inMeanOrder_of_even hsorted heven hsweeps (hreordered.length_eq ▸ hlt)) (hfew below) _
  · intro hodd layer hpos hlt hfew hbeside keys hperm
    have hset := hconsistent.toPlaced.of_reordered (reordered_set hperm)
    rw [hplaced.crossingPairs_segments, hset.crossingPairs_segments]
    exact hplaced.crossingCost_le_of_perm (h.inMeanOrder_of_odd hsorted hodd hpos hlt) (by omega)
      hfew hbeside hperm
  · intro heven hsweeps layer hlt hfew hbeside keys hperm
    have hset := hconsistent.of_reordered (reordered_set hperm)
    rw [hconsistent.crossingPairs_segments_succ, hset.crossingPairs_segments_succ]
    exact hplaced.crossingCost_le_of_perm (h.inMeanOrder_of_even hsorted heven hsweeps hlt)
      (by omega) hfew hbeside hperm

/-- **Crossings.**  Sweeps may add crossings to a layout, but not between two layers whose nodes have
at most two neighbours each.  After the last sweep every layer whose nodes have at most two
neighbours on the side that it was sorted by, just beside it, is in the cheapest order towards that
side; and if they all have at most one there, nothing crosses. -/
theorem Unedited.eased_orderLayers (h : Unedited g) (hsorted : g.sorted = true) (sweeps : Nat) :
    ∃ g', g.orderLayers sweeps = (g', .ok ()) ∧ Eased g sweeps g' := by
  by_cases hlength : 2 ≤ g.layers.length
  · exact ⟨_, orderLayers_of_le hsorted hlength sweeps, h.eased_of_le hsorted hlength sweeps⟩
  · exact ⟨g, orderLayers_of_lt hsorted (Nat.not_le.1 hlength) sweeps,
      eased_of_lt hsorted (Nat.not_le.1 hlength) sweeps⟩

/-- Two nodes of which one has two parents and the other one of these. -/
def slant : Graph Unit :=
  empty.run [.addNode "p" (), .addNode "q" (), .addNode "x" (), .addNode "y" (), .addEdge 2 1,
    .addEdge 3 0, .addEdge 3 1]

theorem eased_slant :
    ∃ g', (slant.assignLayers .lenient).1.orderLayers 4 = (g', .ok ()) ∧
      ∃ before after, (slant.assignLayers .lenient).1.crossings = .ok before ∧
        g'.crossings = .ok after ∧ after ≤ before := by
  have hreachable : Reachable slant := Reachable.empty.run _
  obtain ⟨report, hreport⟩ : ∃ report, (slant.assignLayers .lenient).2 = .ok report := ⟨_, rfl⟩
  have hok : slant.assignLayers .lenient = ((slant.assignLayers .lenient).1, .ok report) :=
    Prod.ext rfl hreport
  obtain ⟨g', heq, heased⟩ := (Unedited.sort hreachable hok).eased_orderLayers (by decide +kernel) 4
  exact ⟨g', heq, heased.crossings_le (by decide +kernel) (by decide +kernel)
    fun _ => by decide +kernel⟩

/-- What a lenient layering makes of a graph, its report aside. -/
theorem perform_lenient (hunrouted : g.routed = false) :
    g.perform (.assignLayers .lenient) = { g.compacted with sorted := true } := by
  rw [perform, assignLayers_of_unrouted hunrouted, if_neg fun h => absurd h.1 (by decide)]

/-- A node with three parents whose mean place is just left of that of a node with two. -/
def fan : Graph Unit :=
  empty.run [.addNode "a" (), .addNode "b" (), .addNode "c" (), .addNode "d" (), .addNode "e" (),
    .addNode "x" (), .addNode "y" (), .addEdge 5 3, .addEdge 5 2, .addEdge 6 3, .addEdge 6 0,
    .addEdge 6 4]

/-- One sweep adds a crossing. -/
theorem crossings_fan :
    (fan.run [.assignLayers .lenient]).crossings = .ok 2 ∧
      (fan.run [.assignLayers .lenient, .orderLayers 1]).crossings = .ok 3 := by
  have hunrouted : fan.routed = false := rfl
  simp only [run, List.foldl_cons, List.foldl_nil, perform_lenient hunrouted]
  cbv

/-- Three layers whose nodes have at most one parent and two children.  The downward sweep puts the
node above `d` between the two nodes above `a`. -/
def fork : Graph Unit :=
  empty.run [.addNode "a" (), .addNode "b" (), .addNode "c" (), .addNode "d" (), .addNode "e" (),
    .addNode "f" (), .addEdge 1 0, .addEdge 2 0, .addEdge 4 3, .addEdge 5 4]

example : (fork.run [.assignLayers .lenient]).crossings = .ok 0 ∧
    (fork.run [.assignLayers .lenient, .orderLayers 2]).crossings = .ok 1 := by
  have hunrouted : fork.routed = false := rfl
  simp only [run, List.foldl_cons, List.foldl_nil, perform_lenient hunrouted]
  cbv

end JobGraph.Graph
