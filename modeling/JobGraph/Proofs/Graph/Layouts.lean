import JobGraph.Proofs.Graph.Operations

/-!
# Layouts of reachable graphs

* **Ranks.**  A lenient layering never fails on a graph that was not routed.  It ranks the nodes that
  lead to no cycle, parents before their dependents, and reports the others.
* **Layers.**  A successful layering puts every ranked node just below its lowest ranked child, or on
  the layer of its depth when it has none.
* **Routing.**  Splitting the long edges of a sorted graph succeeds once and leaves short edges only.

The graphs may have self-loops, several edges between two nodes and several nodes with one id.  Edges
and nodes may have changed since they were sorted.
-/

namespace JobGraph.Graph

variable {α : Type} {g g' : Graph α}

/-- Four nodes in a row with a shortcut from the last to the first, one more parent of the last, and
a node that depends on itself. -/
def shortcut : Graph Unit :=
  empty.run [.addNode "a" (), .addNode "b" (), .addNode "c" (), .addNode "d" (), .addNode "e" (),
    .addNode "f" (), .addEdge 1 0, .addEdge 2 1, .addEdge 3 2, .addEdge 3 0, .addEdge 3 4,
    .addEdge 5 5]

theorem reachable_shortcut : Reachable shortcut :=
  Reachable.empty.run _

/-! ## Ranks -/

/-- `g'` is `g` with ranks for the real nodes that lead to no cycle. -/
structure RanksAcyclic (g g' : Graph α) (report : LayeringReport) : Prop where
  clearLayout_eq : g'.clearLayout = g.clearLayout
  isSome_rankOf_iff : ∀ key, (g'.rankOf key).isSome ↔ key ∈ g.realKeys ∧ ¬ g.LeadsToCycle key
  /-- A ranked node stands in the ranking at its rank, and nowhere else. -/
  rankOf_iff : ∀ key rank, g'.rankOf key = some rank ↔ g'.ranking[rank]? = some key
  nodup_ranking : g'.ranking.Nodup
  parent_rank_lt : ∀ key rank, g'.rankOf key = some rank →
    ∀ parent ∈ g.parentsOf key, ∃ lower < rank, g'.rankOf parent = some lower
  /-- The report names the other real nodes in the order of their creation. -/
  excluded_eq : report.excluded =
    (g.realKeys.filter fun key => (g'.rankOf key).isNone).map g.idOf
  layerOf_eq_none : ∀ key, g'.rankOf key = none → g'.layerOf key = none

/-- **Ranks.**  A lenient layering ranks exactly the nodes that lead to no cycle. -/
theorem Reachable.ranksAcyclic_assignLayers (h : Reachable g) (hunrouted : g.routed = false) :
    ∃ g' report, g.assignLayers .lenient = (g', .ok report) ∧ RanksAcyclic g g' report := by
  have hlinked := h.consistent.toLinked
  have hsome := isSome_rankOf_compacted_iff hlinked hunrouted
  have hrank := rankOf_compacted_iff hlinked hunrouted
  rw [assignLayers_of_unrouted hunrouted, if_neg (by simp)]
  refine ⟨_, _, rfl, ?_⟩
  refine { clearLayout_eq := clearLayout_compacted hlinked hunrouted
           isSome_rankOf_iff := fun key => ?_, rankOf_iff := hrank
           nodup_ranking := nodup_ranking_compacted hlinked hunrouted
           parent_rank_lt := fun key rank hkey parent hparent => ?_, excluded_eq := ?_
           layerOf_eq_none := fun key hkey => ?_ }
  · rw [hlinked.mem_realKeys_iff hunrouted, ← exists_hasDepth_iff,
      ← mem_ranking_compacted_iff hlinked hunrouted]
    exact hsome key
  · have hplaced := parent_mem_ranking_compacted hlinked hunrouted
      (List.mem_of_getElem? ((hrank key rank).1 hkey)) hparent
    obtain ⟨lower, hlower⟩ := List.mem_iff_getElem?.1 hplaced
    refine ⟨lower, ?_, (hrank parent lower).2 hlower⟩
    have hkeyRank := (hrank key rank).1 hkey
    rw [ranking_compacted hlinked hunrouted] at hlower hkeyRank
    exact rank_lt_of_parent hlinked hunrouted hkeyRank hlower hparent
  · show (g.realKeys.filter fun key => (g.levelled.rankOf key).isNone).map g.idOf =
      (g.realKeys.filter fun key => (g.compacted.rankOf key).isNone).map g.idOf
    rw [rankOf_compacted hlinked hunrouted]
  · have hnone : ¬ (g.compacted.layerOf key).isSome := by
      rw [isSome_layerOf_compacted_iff hlinked hunrouted, ← hsome,
        show g.compacted.rankOf key = none from hkey]
      exact Bool.false_ne_true
    exact Option.not_isSome_iff_eq_none.1 hnone

theorem ranksAcyclic_shortcut :
    ∃ g' report, shortcut.assignLayers .lenient = (g', .ok report) ∧
      RanksAcyclic shortcut g' report :=
  reachable_shortcut.ranksAcyclic_assignLayers rfl

example : (shortcut.assignLayers .lenient).1.unplaced = [5] := by decide +kernel

/-! ## Layers -/

/-- `g'` is `g` with its ranked nodes as high as their children allow. -/
structure Layered (g g' : Graph α) (report : LayeringReport) : Prop where
  clearLayout_eq : g'.clearLayout = g.clearLayout
  rankOf_iff : ∀ key rank, g'.rankOf key = some rank ↔ g'.ranking[rank]? = some key
  isSome_layerOf_iff : ∀ key, (g'.layerOf key).isSome ↔ (g'.rankOf key).isSome
  /-- The depth of a ranked node is the length of the longest path along parents from it. -/
  isGreatest_depth : ∀ key, (g'.rankOf key).isSome →
    IsGreatest {length | g.ParentPath key length} (g.depth key)
  layerOf_of_no_child : ∀ key, (g'.rankOf key).isSome →
    (∀ child ∈ g.childrenOf key, g'.rankOf child = none) → g'.layerOf key = some (g.depth key)
  layerOf_of_child : ∀ key, (g'.rankOf key).isSome →
    (∃ child ∈ g.childrenOf key, (g'.rankOf child).isSome) → ∃ layer,
      IsLeast {high | ∃ child ∈ g.childrenOf key, g'.layerOf child = some high} (layer + 1) ∧
        g'.layerOf key = some layer
  /-- Edges from ranked nodes lead to ranked nodes on lower layers. -/
  parent_layer_lt : ∀ key layer, g'.layerOf key = some layer →
    ∀ parent ∈ g.parentsOf key, ∃ lower < layer, g'.layerOf parent = some lower
  layerOf_iff : ∀ key layer,
    g'.layerOf key = some layer ↔ ∃ keys, g'.layers[layer]? = some keys ∧ key ∈ keys
  nodup_layers : ∀ keys ∈ g'.layers, keys.Nodup
  layers_ne_nil : ∀ keys ∈ g'.layers, keys ≠ []
  layerCount_eq : report.layerCount = g'.layers.length
  /-- Without ranked nodes there is no layer, else one more than the longest path has edges. -/
  layerCount_cases : (∀ key, g'.rankOf key = none) ∧ report.layerCount = 0 ∨
    ∃ longest, IsGreatest
        {length | ∃ key, (g'.rankOf key).isSome ∧ g.ParentPath key length} longest ∧
      report.layerCount = longest + 1
  moved_eq : report.moved = g'.ranking.countP fun key => g'.layerOf key ≠ some (g.depth key)
  /-- A layer lists the nodes that were not moved by ascending rank, then the others by descending
  rank. -/
  layers_eq : ∀ (layer : Nat) (keys : List NodeKey), g'.layers[layer]? = some keys →
    keys =
      (g'.ranking.filter fun key => g'.layerOf key = some layer ∧ g.depth key = layer) ++
        g'.ranking.reverse.filter fun key => g'.layerOf key = some layer ∧ g.depth key ≠ layer

/-- **Layers.**  A successful layering puts ranked nodes just below their lowest ranked child. -/
theorem Reachable.layered_assignLayers (h : Reachable g) {policy : CyclePolicy}
    {report : LayeringReport} (hok : g.assignLayers policy = (g', .ok report)) :
    Layered g g' report := by
  obtain ⟨hunrouted, rfl, rfl⟩ := eq_compacted_of_assignLayers hok
  have hlinked := h.consistent.toLinked
  have hplaced := placed_compacted hlinked hunrouted
  have hdepth := depth_compacted hlinked hunrouted
  have hrank := isSome_rankOf_compacted_iff hlinked hunrouted
  have hlayer := isSome_layerOf_compacted_iff_rankOf hlinked hunrouted
  refine { clearLayout_eq := clearLayout_compacted hlinked hunrouted
           rankOf_iff := hplaced.rankOf_iff
           isSome_layerOf_iff := hlayer
           isGreatest_depth := fun key hkey => ?_
           layerOf_of_no_child := fun key hkey hnone => ?_
           layerOf_of_child := fun key hkey hsome => ?_
           parent_layer_lt := fun key layer hkey parent hparent =>
             layer_lt_of_parent hlinked hunrouted hkey hparent
           layerOf_iff := hplaced.layerOf_iff
           nodup_layers := hplaced.nodup_layers
           layers_ne_nil := fun keys hkeys => layers_compacted_ne_nil hlinked hunrouted hkeys
           layerCount_eq := rfl
           layerCount_cases := ?_
           moved_eq := ?_
           layers_eq := fun layer keys hkeys => ?_ }
  · obtain ⟨-, d, hd⟩ := (mem_ranking_compacted_iff hlinked hunrouted key).1 ((hrank key).1 hkey)
    rw [hd.depth_eq]
    exact hd
  · refine layerOf_compacted_of_no_child hlinked hunrouted ((hrank key).1 hkey) fun child hchild => ?_
    rw [← Option.not_isSome_iff_eq_none, hlayer,
      show g.compacted.rankOf child = none from hnone child hchild]
    exact Bool.false_ne_true
  · obtain ⟨child, hchild, hranked⟩ := hsome
    exact layerOf_compacted_of_child hlinked hunrouted ((hrank key).1 hkey) hchild
      ((hlayer child).2 hranked)
  · rcases layerCount_compacted hlinked hunrouted with ⟨hnil, hzero⟩ | ⟨longest, hlongest, hcount⟩
    · refine .inl ⟨fun key => ?_, hzero⟩
      rw [← Option.not_isSome_iff_eq_none]
      show ¬ (g.compacted.rankOf key).isSome
      rw [hrank, hnil]
      exact List.not_mem_nil
    · simp only [← hrank] at hlongest
      exact .inr ⟨longest, hlongest, hcount⟩
  · show g.levelled.compact.2 =
      g.compacted.ranking.countP fun key => g.compacted.layerOf key ≠ some (g.depth key)
    rw [← hdepth]
    exact moved_compacted hlinked hunrouted
  · rw [← hdepth]
    exact layers_compacted_eq hlinked hunrouted hkeys

theorem layered_shortcut : ∃ g' report, shortcut.assignLayers .lenient = (g', .ok report) ∧
    Layered shortcut g' report := by
  obtain ⟨report, hreport⟩ : ∃ report, (shortcut.assignLayers .lenient).2 = .ok report := ⟨_, rfl⟩
  exact ⟨_, report, Prod.ext rfl hreport,
    reachable_shortcut.layered_assignLayers (Prod.ext rfl hreport)⟩

example : (shortcut.assignLayers .lenient).1.layers = [[0], [1], [2, 4], [3]] := by decide +kernel

/-! ## Routing -/

/-- **Routing.**  A sorted graph that was not routed can be routed: every long edge gives way to a
chain, and nothing else changes. -/
theorem Reachable.routed_routeLongEdges (h : Reachable g) (hsorted : g.sorted = true)
    (hunrouted : g.routed = false) :
    ∃ g' chains, g.routeLongEdges = (g', .ok g'.waypointKeys.length) ∧ Routed g g' chains ∧
      g'.waypointKeys.length = ((g.edges.filter g.IsLong).map fun edge => g.drop edge - 1).sum := by
  have hlinked := h.consistent.markRouted.toLinked
  obtain ⟨state, chains, heq, hsplitting, hperm⟩ :=
    exists_splitting_routeLongEdges h.consistent hsorted hunrouted
  have hrouted := hsplitting.routed hperm hlinked (h.consistent.waypointKeys_of_unrouted hunrouted)
  have hcount : state.2 = state.1.waypointKeys.length := by
    rw [hrouted.waypointKeys_eq]
    exact hsplitting.count_eq
  refine ⟨state.1, chains, by rw [heq, hcount], hrouted.of_markRouted, ?_⟩
  rw [← hcount]
  exact hsplitting.count_eq_sum hperm

theorem routed_shortcut :
    ∃ g' chains, (shortcut.assignLayers .lenient).1.routeLongEdges =
        (g', .ok g'.waypointKeys.length) ∧
      Routed (shortcut.assignLayers .lenient).1 g' chains ∧
      g'.waypointKeys.length = (((shortcut.assignLayers .lenient).1.edges.filter
        (shortcut.assignLayers .lenient).1.IsLong).map
          fun edge => (shortcut.assignLayers .lenient).1.drop edge - 1).sum :=
  (reachable_shortcut.perform (.assignLayers .lenient)).routed_routeLongEdges rfl
    (by decide +kernel)

example : (shortcut.assignLayers .lenient).1.routeLongEdges.1.layers =
    [[0], [1, 7], [2, 4, 6], [3]] := by decide +kernel

end JobGraph.Graph
