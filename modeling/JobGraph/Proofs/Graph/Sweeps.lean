import JobGraph.Proofs.Graph.Descent
import JobGraph.Proofs.Graph.GuardedOrdering
import JobGraph.Proofs.Graph.Numbering

/-!
# What the last sweep leaves

A sweep visits the layers one after the other and sorts each of them by the mean places of the
neighbours on one side.  Places change while it runs, so a layer that was sorted early might be out
of order again at the end.  It is not, because no edge leads up: an upward sweep reads the parents of
a node when their layers are final, and a downward sweep the children.

* `inMeanOrder_orderLayer`: sorting a layer puts it in order, as no node of it has a neighbour on the
  same layer.
* `InMeanOrder.orderLayer`: sorting another layer keeps it in order, if its nodes have no neighbours
  there.
* `inMeanOrder_foldl_orderLayer`: a sweep visits every layer after those that it is sorted by.

A node without neighbours weighs as much as its own place and moves among the others; nothing is said
about where it comes to stand.
-/

/-! ## Means -/

namespace JobGraph.Mean

/-- The number that a mean is. -/
def value (mean : Mean) : ℚ :=
  mean.total / mean.count

theorem le_iff {first second : Mean} (hfirst : 0 < first.count) (hsecond : 0 < second.count) :
    first.le second = true ↔ first.value ≤ second.value := by
  have hfirst' : (0 : ℚ) < first.count := Nat.cast_pos.2 hfirst
  have hsecond' : (0 : ℚ) < second.count := Nat.cast_pos.2 hsecond
  rw [value, value, div_le_div_iff₀ hfirst' hsecond', le, decide_eq_true_iff]
  norm_cast

end JobGraph.Mean

namespace JobGraph.Graph

variable {α : Type} {g g' : Graph α}

theorem count_weight_pos (layers : List (List NodeKey)) (neighbours : NodeKey → List NodeKey)
    (key : NodeKey) : 0 < (weight layers neighbours key).count := by
  rw [weight, Mean.of?]
  split
  · exact Nat.one_pos
  · rename_i hsome
    exact List.length_pos_iff.2 (mt List.isEmpty_iff.2 hsome)

/-- A layer is sorted by its weights. -/
theorem pairwise_mergeSort_weight (layers : List (List NodeKey))
    (neighbours : NodeKey → List NodeKey) (keys : List NodeKey) :
    (keys.mergeSort fun first second =>
      (weight layers neighbours first).le (weight layers neighbours second)).Pairwise
        fun first second =>
          (weight layers neighbours first).value ≤ (weight layers neighbours second).value := by
  have hle : ∀ first second,
      (weight layers neighbours first).le (weight layers neighbours second) = true ↔
        (weight layers neighbours first).value ≤ (weight layers neighbours second).value := by
    intro first second
    exact Mean.le_iff (count_weight_pos layers neighbours first)
      (count_weight_pos layers neighbours second)
  apply (List.pairwise_mergeSort ?_ ?_ keys).imp
  · exact fun h => (hle _ _).1 h
  · intro first second third h h'
    rw [hle] at h h' ⊢
    exact h.trans h'
  · intro first second
    rw [Bool.or_eq_true, hle, hle]
    exact le_total _ _

/-! ## Places -/

/-- The place of a node in the list of its layer. -/
def placeOf? (g : Graph α) (key : NodeKey) : Option Nat :=
  (g.layerOf key).bind fun layer => (g.layers[layer]?.getD []).idxOf? key

/-- The mean place of those nodes that have one. -/
def meanPlace (g : Graph α) (keys : List NodeKey) : ℚ :=
  ((keys.filterMap g.placeOf?).sum : ℚ) / (keys.filterMap g.placeOf?).length

theorem Placed.isSome_placeOf? (h : Placed g) {key : NodeKey} (hlayer : (g.layerOf key).isSome) :
    (g.placeOf? key).isSome := by
  obtain ⟨layer, hlayer⟩ := Option.isSome_iff_exists.1 hlayer
  rw [placeOf?, hlayer, Option.bind_some, List.isSome_idxOf?]
  exact h.mem_layer_iff.2 hlayer

/-- The first list that holds a node is that of its layer. -/
theorem Placed.placeIn_eq_placeOf? (h : Placed g) (key : NodeKey) :
    placeIn g.layers key = g.placeOf? key := by
  cases hplace : placeIn g.layers key with
  | none =>
      cases hlayer : g.layerOf key with
      | none => rw [placeOf?, hlayer, Option.bind_none]
      | some layer =>
          have hsome := h.placeIn_eq hlayer
          rw [hplace] at hsome
          exact absurd hsome (Option.some_ne_none _).symm
  | some place =>
      obtain ⟨keys, hkeys, hidx⟩ := List.exists_of_findSome?_eq_some hplace
      obtain ⟨layer, hlayer⟩ := List.mem_iff_getElem?.1 hkeys
      have hkey : key ∈ keys := by
        rw [← List.isSome_idxOf?, hidx]
        rfl
      rw [placeOf?, (h.layerOf_iff key layer).2 ⟨keys, hlayer, hkey⟩, Option.bind_some, hlayer,
        Option.getD_some, hidx]

theorem Placed.value_weight (h : Placed g) {neighbours : NodeKey → List NodeKey} {key : NodeKey}
    (hplaced : (neighbours key).any fun other => (g.layerOf other).isSome) :
    (weight g.layers neighbours key).value = g.meanPlace (neighbours key) := by
  have hplaces : (neighbours key).filterMap (placeIn g.layers) =
      (neighbours key).filterMap g.placeOf? :=
    List.filterMap_congr fun other _ => h.placeIn_eq_placeOf? other
  have hne : (neighbours key).filterMap g.placeOf? ≠ [] := by
    obtain ⟨other, hother, hlayer⟩ := List.any_eq_true.1 hplaced
    obtain ⟨place, hplace⟩ := Option.isSome_iff_exists.1 (h.isSome_placeOf? hlayer)
    exact List.ne_nil_of_mem (List.mem_filterMap.2 ⟨other, hother, hplace⟩)
  rw [weight, hplaces, Mean.of?, if_neg (mt List.isEmpty_iff.1 hne), Option.getD_some, Mean.value,
    meanPlace]
  rfl

/-! ## Sorting one layer -/

/-- The nodes of a layer with a placed neighbour stand by the mean place of their neighbours. -/
def InMeanOrder (g : Graph α) (neighbours : NodeKey → List NodeKey) (layer : Nat) : Prop :=
  ((g.layers[layer]?.getD []).filter fun key =>
      (neighbours key).any fun other => (g.layerOf other).isSome).Pairwise
    fun first second => g.meanPlace (neighbours first) ≤ g.meanPlace (neighbours second)

/-- No node of a layer has a neighbour on the other one. -/
def Apart (g : Graph α) (neighbours : NodeKey → List NodeKey) (layer other : Nat) : Prop :=
  ∀ key, g.layerOf key = some layer → ∀ neighbour ∈ neighbours key,
    g.layerOf neighbour ≠ some other

section Sorting

variable {neighbours : NodeKey → List NodeKey} {layer other : Nat}

theorem getElem?_orderLayer_of_ne {layers : List (List NodeKey)} (hne : layer ≠ other) :
    (orderLayer neighbours layers other)[layer]? = layers[layer]? := by
  rw [orderLayer, List.getElem?_modify]
  cases layers[layer]? with
  | none => rfl
  | some keys => exact congrArg some (if_neg hne.symm)

/-- Sorting a layer moves nobody else. -/
theorem placeOf?_orderLayer {key : NodeKey} (hlayer : g.layerOf key ≠ some other) :
    placeOf? { g with layers := orderLayer neighbours g.layers other } key = g.placeOf? key := by
  show ((g.layerOf key).bind fun layer =>
    ((orderLayer neighbours g.layers other)[layer]?.getD []).idxOf? key) = g.placeOf? key
  rw [placeOf?]
  cases hkey : g.layerOf key with
  | none => rfl
  | some layer =>
      have hne : layer ≠ other := fun heq => hlayer (heq ▸ hkey)
      rw [Option.bind_some, Option.bind_some, getElem?_orderLayer_of_ne hne]

/-- The nodes of a layer apart from the sorted one are drawn to the same place as before. -/
theorem Apart.meanPlace_orderLayer (hapart : g.Apart neighbours layer other) {key : NodeKey}
    (hkey : g.layerOf key = some layer) :
    meanPlace { g with layers := orderLayer neighbours g.layers other } (neighbours key) =
      g.meanPlace (neighbours key) := by
  have hplaces : (neighbours key).filterMap
        (placeOf? { g with layers := orderLayer neighbours g.layers other }) =
      (neighbours key).filterMap g.placeOf? :=
    List.filterMap_congr fun neighbour hneighbour =>
      placeOf?_orderLayer (hapart key hkey neighbour hneighbour)
  rw [meanPlace, meanPlace, hplaces]

/-- A layer that was sorted is in order. -/
theorem Placed.inMeanOrder_orderLayer (h : Placed g) (hapart : g.Apart neighbours layer layer) :
    InMeanOrder { g with layers := orderLayer neighbours g.layers layer } neighbours layer := by
  have hplaced := h.of_reordered (reordered_orderLayer neighbours g.layers layer)
  rw [InMeanOrder]
  cases hkeys : g.layers[layer]? with
  | none =>
      have hnone : (orderLayer neighbours g.layers layer)[layer]? = none := by
        rw [orderLayer, List.getElem?_modify, hkeys]
        rfl
      simp only [hnone, Option.getD_none, List.filter_nil, List.Pairwise.nil]
  | some keys =>
      have hsorted : (orderLayer neighbours g.layers layer)[layer]? =
          some (keys.mergeSort fun first second =>
            (weight g.layers neighbours first).le (weight g.layers neighbours second)) := by
        rw [orderLayer, List.getElem?_modify, hkeys]
        simp
      simp only [hsorted, Option.getD_some]
      refine ((pairwise_mergeSort_weight g.layers neighbours keys).filter _).imp_of_mem ?_
      intro first second hfirst hsecond hle
      -- both are drawn to the mean place of their neighbours, and these did not move
      obtain ⟨hfirst, hfirst'⟩ := List.mem_filter.1 hfirst
      obtain ⟨hsecond, hsecond'⟩ := List.mem_filter.1 hsecond
      have hmem : ∀ key ∈ keys.mergeSort fun first second =>
            (weight g.layers neighbours first).le (weight g.layers neighbours second),
          g.layerOf key = some layer := by
        intro key hkey
        exact (h.layerOf_iff key layer).2 ⟨keys, hkeys, List.mem_mergeSort.1 hkey⟩
      rw [h.value_weight hfirst', h.value_weight hsecond'] at hle
      rwa [hapart.meanPlace_orderLayer (hmem first hfirst),
        hapart.meanPlace_orderLayer (hmem second hsecond)]

/-- Sorting another layer keeps the order of a layer apart from it. -/
theorem InMeanOrder.orderLayer (h : g.InMeanOrder neighbours layer) (hplaced : Placed g)
    (hne : layer ≠ other) (hapart : g.Apart neighbours layer other) :
    InMeanOrder { g with layers := orderLayer neighbours g.layers other } neighbours layer := by
  rw [InMeanOrder]
  simp only [getElem?_orderLayer_of_ne hne]
  refine h.imp_of_mem ?_
  intro first second hfirst hsecond hle
  have hfirst' := hplaced.mem_layer_iff.1 (List.mem_filter.1 hfirst).1
  have hsecond' := hplaced.mem_layer_iff.1 (List.mem_filter.1 hsecond).1
  rwa [hapart.meanPlace_orderLayer hfirst', hapart.meanPlace_orderLayer hsecond']

/-! ## Sorting one layer after the other -/

/-- Layers are in order at the end if they are sorted after those that they are sorted by. -/
theorem Placed.inMeanOrder_foldl_orderLayer (h : Placed g) {order : List Nat}
    (hself : ∀ layer ∈ order, g.Apart neighbours layer layer)
    (hlater : order.Pairwise fun layer later => layer ≠ later ∧ g.Apart neighbours layer later) :
    ∀ layer ∈ order,
      InMeanOrder { g with layers := order.foldl (Graph.orderLayer neighbours) g.layers }
        neighbours layer := by
  induction order using List.reverseRecOn with
  | nil => exact fun _ hlayer => absurd hlayer List.not_mem_nil
  | append_singleton order last ih =>
      have hplaced := h.of_reordered (.foldl (reordered_orderLayer neighbours) order g.layers)
      obtain ⟨hlater, -, hlast⟩ := List.pairwise_append.1 hlater
      rw [List.foldl_concat]
      intro layer hlayer
      rcases List.mem_append.1 hlayer with hbefore | hlayer
      · have hkept := ih (fun layer hlayer => hself layer (List.mem_append_left _ hlayer)) hlater
          layer hbefore
        obtain ⟨hne, hapart⟩ := hlast layer hbefore last (List.mem_singleton_self last)
        exact hkept.orderLayer hplaced hne hapart
      · obtain rfl := List.mem_singleton.1 hlayer
        have hapart := hself layer (List.mem_append_right _ (List.mem_singleton_self layer))
        exact hplaced.inMeanOrder_orderLayer hapart

end Sorting

/-! ## Unedited graphs -/

/-- A graph that was layered, and whose edges nothing but a routing changed since. -/
inductive Unedited : Graph α → Prop
  | sort {g g' : Graph α} (h : Reachable g) {policy : CyclePolicy} {report : LayeringReport}
      (hok : g.assignLayers policy = (g', .ok report)) : Unedited g'
  | keep {g : Graph α} (h : Unedited g) (operation : Operation α)
      (hkeeps : operation.editsEdges = false) : Unedited (g.perform operation)

/-- Without a new edge no edge becomes misdrawn. -/
theorem misdrawnAfter_nil {operation : Operation α} (hkeeps : operation.editsEdges = false) :
    g.misdrawnAfter [] operation = [] := by
  cases operation with
  | addEdge dependent parent => exact absurd hkeeps nofun
  | assignLayers policy => rw [misdrawnAfter]; split <;> rfl
  | layOut options => rw [misdrawnAfter]; split <;> rfl
  | _ => rfl

namespace Unedited

theorem reachable (h : Unedited g) : Reachable g := by
  induction h with
  | @sort g g' h policy report hok =>
      have hperformed := h.perform (.assignLayers policy)
      rwa [Graph.perform, hok] at hperformed
  | keep _ operation _ ih => exact ih.perform operation

theorem drawnBut (h : Unedited g) (hsorted : g.sorted = true) : DrawnBut [] g := by
  induction h with
  | sort h hok => exact h.drawnBut_assignLayers hok
  | keep h operation hkeeps ih =>
      rw [← misdrawnAfter_nil hkeeps]
      exact h.reachable.drawnBut_perform ih operation hsorted

variable (h : Unedited g) (hsorted : g.sorted = true)

include h hsorted

/-- The parents of a node with a layer are on lower layers. -/
theorem layerOf_parent {key parent : NodeKey} {layer : Nat} (hlayer : g.layerOf key = some layer)
    (hparent : parent ∈ g.parentsOf key) : ∃ lower < layer, g.layerOf parent = some lower := by
  have hdescends : g.Descends ⟨key, parent⟩ := by
    by_contra hnot
    have hmem := (h.drawnBut hsorted).mem_of_not_descends _ (mem_edges_iff.2 hparent) hnot
    exact absurd hmem List.not_mem_nil
  obtain ⟨lower, hlower, hlt⟩ := hdescends layer hlayer
  exact ⟨lower, hlt, hlower⟩

theorem apart_parentsOf {layer other : Nat} (hle : layer ≤ other) :
    g.Apart g.parentsOf layer other := by
  intro key hkey parent hparent hother
  obtain ⟨lower, hlt, hlower⟩ := h.layerOf_parent hsorted hkey hparent
  have := Option.some.inj (hlower.symm.trans hother)
  omega

theorem apart_childrenOf {layer other : Nat} (hle : other ≤ layer) :
    g.Apart g.childrenOf layer other := by
  intro key hkey child hchild hother
  have hparent := h.reachable.consistent.toLinked.mem_childrenOf_iff.1 hchild
  obtain ⟨lower, hlt, hlower⟩ := h.layerOf_parent hsorted hother hparent
  have := Option.some.inj (hlower.symm.trans hkey)
  omega

/-- An upward sweep leaves all layers but the lowest in order. -/
theorem inMeanOrder_sweepUp {layers : List (List NodeKey)} (hlayers : Reordered g.layers layers)
    {layer : Nat} (hpos : 0 < layer) (hlt : layer < layers.length) :
    InMeanOrder { g with layers := g.sweepUp layers } g.parentsOf layer := by
  have hplaced := h.reachable.consistent.toPlaced.of_reordered hlayers
  refine hplaced.inMeanOrder_foldl_orderLayer ?_ ?_ layer ?_
  · exact fun layer _ => h.apart_parentsOf hsorted (le_refl layer)
  · refine (List.pairwise_lt_range' 1).imp ?_
    intro layer later hlt
    exact ⟨hlt.ne, h.apart_parentsOf hsorted hlt.le⟩
  · rw [List.mem_range'_1]
    omega

/-- A downward sweep leaves all layers but the top one in order. -/
theorem inMeanOrder_sweepDown {layers : List (List NodeKey)} (hlayers : Reordered g.layers layers)
    {layer : Nat} (hlt : layer + 1 < layers.length) :
    InMeanOrder { g with layers := g.sweepDown layers } g.childrenOf layer := by
  have hplaced := h.reachable.consistent.toPlaced.of_reordered hlayers
  refine hplaced.inMeanOrder_foldl_orderLayer ?_ ?_ layer ?_
  · exact fun layer _ => h.apart_childrenOf hsorted (le_refl layer)
  · rw [List.pairwise_reverse]
    refine List.pairwise_lt_range.imp ?_
    intro later layer hlt
    exact ⟨hlt.ne', h.apart_childrenOf hsorted hlt.le⟩
  · rw [List.mem_reverse, List.mem_range]
    omega

end Unedited

/-! ## Ordering -/

/-- The layers after some sweeps. -/
def sweptLayers (g : Graph α) (sweeps : Nat) : List (List NodeKey) :=
  (List.range sweeps).foldl g.sweep g.layers

theorem reordered_sweptLayers (g : Graph α) (sweeps : Nat) :
    Reordered g.layers (g.sweptLayers sweeps) :=
  .foldl (reordered_sweep g) _ g.layers

theorem sweptLayers_succ (g : Graph α) (sweeps : Nat) :
    g.sweptLayers (sweeps + 1) = g.sweep (g.sweptLayers sweeps) sweeps := by
  rw [sweptLayers, List.range_succ, List.foldl_concat, sweptLayers]

theorem orderLayers_of_lt (hsorted : g.sorted = true) (hlength : g.layers.length < 2)
    (sweeps : Nat) : g.orderLayers sweeps = (g, .ok ()) := by
  rw [Graph.orderLayers, if_neg (by simp [hsorted]), if_pos hlength]

theorem orderLayers_of_le (hsorted : g.sorted = true) (hlength : 2 ≤ g.layers.length)
    (sweeps : Nat) :
    g.orderLayers sweeps = ({ g with layers := g.sweptLayers sweeps }, .ok ()) := by
  rw [Graph.orderLayers, if_neg (by simp [hsorted]), if_neg (Nat.not_lt.2 hlength)]
  rfl

namespace Unedited

variable (h : Unedited g) (hsorted : g.sorted = true) {sweeps layer : Nat}

include h hsorted

theorem inMeanOrder_of_odd (hodd : sweeps % 2 = 1) (hpos : 0 < layer)
    (hlt : layer < g.layers.length) :
    InMeanOrder { g with layers := g.sweptLayers sweeps } g.parentsOf layer := by
  obtain ⟨sweeps, rfl⟩ : ∃ before, sweeps = before + 1 := ⟨sweeps - 1, by omega⟩
  have hreordered := g.reordered_sweptLayers sweeps
  rw [sweptLayers_succ, sweep, if_pos (by omega)]
  exact h.inMeanOrder_sweepUp hsorted hreordered hpos (hreordered.length_eq.symm ▸ hlt)

theorem inMeanOrder_of_even (heven : sweeps % 2 = 0) (hsweeps : 0 < sweeps)
    (hlt : layer + 1 < g.layers.length) :
    InMeanOrder { g with layers := g.sweptLayers sweeps } g.childrenOf layer := by
  obtain ⟨sweeps, rfl⟩ : ∃ before, sweeps = before + 1 := ⟨sweeps - 1, by omega⟩
  have hreordered := g.reordered_sweptLayers sweeps
  rw [sweptLayers_succ, sweep, if_neg (by omega)]
  exact h.inMeanOrder_sweepDown hsorted hreordered (hreordered.length_eq.symm ▸ hlt)

end Unedited

/-- **Sweeps.**  Ordering the layers of a graph whose edges were not edited since it was layered
rearranges the lists of the layers and nothing else.  What order they have at the end depends on the
last sweep: nodes stand by their parents after an upward one, and by their children after a downward
one.  All parents of a node with a layer have a place. -/
theorem Unedited.inMeanOrder_orderLayers (h : Unedited g) (hsorted : g.sorted = true)
    (sweeps : Nat) :
    ∃ layers, g.orderLayers sweeps = ({ g with layers }, .ok ()) ∧ Reordered g.layers layers ∧
      (2 ≤ g.layers.length →
        (sweeps % 2 = 1 → ∀ layer, 0 < layer → layer < g.layers.length →
          InMeanOrder { g with layers } g.parentsOf layer ∧
            ∀ key, g.layerOf key = some layer → ∀ parent ∈ g.parentsOf key,
              (placeOf? { g with layers } parent).isSome) ∧
        (sweeps % 2 = 0 → 0 < sweeps → ∀ layer, layer + 1 < g.layers.length →
          InMeanOrder { g with layers } g.childrenOf layer)) := by
  by_cases hlength : 2 ≤ g.layers.length
  · have hreordered := g.reordered_sweptLayers sweeps
    refine ⟨_, orderLayers_of_le hsorted hlength sweeps, hreordered, fun _ => ⟨?_, ?_⟩⟩
    · intro hodd layer hpos hlt
      refine ⟨h.inMeanOrder_of_odd hsorted hodd hpos hlt, fun key hkey parent hparent => ?_⟩
      obtain ⟨lower, -, hlower⟩ := h.layerOf_parent hsorted hkey hparent
      have hplaced := h.reachable.consistent.toPlaced.of_reordered hreordered
      exact hplaced.isSome_placeOf? (Option.isSome_of_eq_some hlower)
    · intro heven hsweeps layer hlt
      exact h.inMeanOrder_of_even hsorted heven hsweeps hlt
  · refine ⟨g.layers, ?_, .refl g.layers, fun hlength' => absurd hlength' hlength⟩
    exact orderLayers_of_lt hsorted (Nat.not_le.1 hlength) sweeps

/-- Two nodes that depend on two others crosswise, and a third one that depends on the first of them
and on the first of the others. -/
def crosswise : Graph Unit :=
  empty.run [.addNode "a" (), .addNode "b" (), .addNode "c" (), .addNode "d" (), .addNode "e" (),
    .addEdge 2 1, .addEdge 3 0, .addEdge 4 2, .addEdge 4 0]

/-- Its layout, with a waypoint on the long edge. -/
def crosswiseLayout : Graph Unit :=
  crosswise.run [.assignLayers .lenient, .routeLongEdges]

theorem unedited_crosswiseLayout : Unedited crosswiseLayout := by
  have hreachable : Reachable crosswise := Reachable.empty.run _
  obtain ⟨report, hreport⟩ : ∃ report, (crosswise.assignLayers .lenient).2 = .ok report := ⟨_, rfl⟩
  have hok : crosswise.assignLayers .lenient = ((crosswise.assignLayers .lenient).1, .ok report) :=
    Prod.ext rfl hreport
  exact (Unedited.sort hreachable hok).keep .routeLongEdges rfl

theorem inMeanOrder_crosswiseLayout :
    ∃ layers, crosswiseLayout.orderLayers 3 = ({ crosswiseLayout with layers }, .ok ()) ∧
      Reordered crosswiseLayout.layers layers ∧
      ∀ layer, 0 < layer → layer < 3 →
        InMeanOrder { crosswiseLayout with layers } crosswiseLayout.parentsOf layer := by
  have hsorted : crosswiseLayout.sorted = true := by decide +kernel
  have hlength : crosswiseLayout.layers.length = 3 := by decide +kernel
  obtain ⟨layers, heq, hreordered, hmeans⟩ :=
    unedited_crosswiseLayout.inMeanOrder_orderLayers hsorted 3
  refine ⟨layers, heq, hreordered, fun layer hpos hlt => ?_⟩
  exact ((hmeans (by omega)).1 rfl layer hpos (by omega)).1

example : crosswiseLayout.layers = [[0, 1], [3, 2, 5], [4]] ∧
    (crosswiseLayout.orderLayers 3).1.layers = [[0, 1], [3, 5, 2], [4]] := by
  cbv

end JobGraph.Graph
