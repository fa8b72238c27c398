import JobGraph.Proofs.Graph.Compaction

/-!
# What a layering leaves

* **Places.**  The compacted graph is `Placed` again: its layers list the ranked nodes, each once.
* **No gap.**  Every layer up to the greatest depth holds a node which stands on the layer of its
  depth: the end of a longest path does, and below a node that does, the parent which makes up its
  depth has no room to be lifted.  So compaction empties no layer.
* **Edges.**  An edge between ranked nodes leads to a lower layer.
-/

namespace JobGraph.Graph

variable {α : Type} {g : Graph α}

/-- The graph after both passes of a layering. -/
def compacted (g : Graph α) : Graph α :=
  g.levelled.compact.1

section Compacted

variable (hlinked : Linked g) (hunrouted : g.routed = false)

include hlinked hunrouted

/-! ## Places -/

theorem clearLayout_compacted : g.compacted.clearLayout = g.clearLayout :=
  (Lifting.compact hlinked hunrouted).clearLayout_eq

theorem ranking_compacted : g.compacted.ranking = g.levelled.ranking :=
  (Lifting.compact hlinked hunrouted).ranking_eq

theorem rankOf_compacted : g.compacted.rankOf = g.levelled.rankOf :=
  (Lifting.compact hlinked hunrouted).rankOf_eq

theorem depth_compacted : g.compacted.depth = g.depth :=
  (Lifting.compact hlinked hunrouted).depth_eq

theorem rankOf_compacted_iff (key : NodeKey) (rank : Nat) :
    g.compacted.rankOf key = some rank ↔ g.compacted.ranking[rank]? = some key := by
  rw [rankOf_compacted hlinked hunrouted, ranking_compacted hlinked hunrouted]
  exact (placed_levelled hlinked hunrouted).rankOf_iff key rank

theorem isSome_rankOf_compacted_iff (key : NodeKey) :
    (g.compacted.rankOf key).isSome ↔ key ∈ g.compacted.ranking := by
  simp only [Option.isSome_iff_exists, rankOf_compacted_iff hlinked hunrouted,
    List.mem_iff_getElem?]

theorem isSome_layerOf_compacted_iff (key : NodeKey) :
    (g.compacted.layerOf key).isSome ↔ key ∈ g.compacted.ranking :=
  (Lifting.compact hlinked hunrouted).layerOf_isSome key

theorem isSome_layerOf_compacted_iff_rankOf (key : NodeKey) :
    (g.compacted.layerOf key).isSome ↔ (g.compacted.rankOf key).isSome := by
  rw [isSome_layerOf_compacted_iff hlinked hunrouted, isSome_rankOf_compacted_iff hlinked hunrouted]

theorem mem_ranking_compacted_iff (key : NodeKey) :
    key ∈ g.compacted.ranking ↔ key < g.nodes.size ∧ ∃ d, g.HasDepth key d := by
  rw [ranking_compacted hlinked hunrouted, mem_ranking_levelled_iff hlinked hunrouted]

theorem nodup_ranking_compacted : g.compacted.ranking.Nodup := by
  rw [ranking_compacted hlinked hunrouted]
  exact nodup_ranking_levelled hlinked hunrouted

theorem settled_compacted {key : NodeKey} (hkey : key ∈ g.compacted.ranking) :
    g.compacted.Settled key := by
  refine (Lifting.compact hlinked hunrouted).settled key ?_
  rwa [List.mem_reverse, ← ranking_compacted hlinked hunrouted]

theorem layerOf_compacted_of_no_child {key : NodeKey} (hkey : key ∈ g.compacted.ranking)
    (hnone : ∀ child ∈ g.childrenOf key, g.compacted.layerOf child = none) :
    g.compacted.layerOf key = some (g.depth key) := by
  rw [← depth_compacted hlinked hunrouted]
  refine (settled_compacted hlinked hunrouted hkey).1 (lowestChildLayer_eq_none_iff.2 ?_)
  rwa [childrenOf_of_clearLayout_eq (clearLayout_compacted hlinked hunrouted)]

/-- A node with a placed child stands just below the lowest of these. -/
theorem layerOf_compacted_of_child {key child : NodeKey} (hkey : key ∈ g.compacted.ranking)
    (hchild : child ∈ g.childrenOf key) (hplaced : (g.compacted.layerOf child).isSome) :
    ∃ layer, IsLeast {high | ∃ child ∈ g.childrenOf key, g.compacted.layerOf child = some high}
        (layer + 1) ∧ g.compacted.layerOf key = some layer := by
  have hchildren := childrenOf_of_clearLayout_eq (clearLayout_compacted hlinked hunrouted)
  cases hlow : g.compacted.lowestChildLayer key with
  | none =>
      have hnone := lowestChildLayer_eq_none_iff.1 hlow child (hchildren ▸ hchild)
      rw [hnone] at hplaced
      exact absurd hplaced Bool.false_ne_true
  | some low =>
      obtain ⟨hpos, hplace⟩ := (settled_compacted hlinked hunrouted hkey).2 low hlow
      have hleast := lowestChildLayer_eq_some_iff.1 hlow
      rw [hchildren] at hleast
      exact ⟨low - 1, by rwa [Nat.sub_add_cancel hpos], hplace⟩

theorem moved_compacted : g.levelled.compact.2 = g.compacted.ranking.countP fun key =>
    g.compacted.layerOf key ≠ some (g.compacted.depth key) := by
  rw [(Lifting.compact hlinked hunrouted).moved_eq, List.countP_reverse,
    ranking_compacted hlinked hunrouted]
  rfl

/-- A layer lists the nodes that stayed on it, by rank, and then those lifted to it, the last rank
first. -/
theorem layers_compacted_eq {layer : Nat} {keys : List NodeKey}
    (hkeys : g.compacted.layers[layer]? = some keys) :
    keys = g.compacted.stayed layer ++ g.compacted.lifted g.compacted.ranking.reverse layer := by
  rw [ranking_compacted hlinked hunrouted]
  exact (Lifting.compact hlinked hunrouted).layers_eq layer keys hkeys

theorem placed_compacted : Placed g.compacted where
  rankOf_iff := rankOf_compacted_iff hlinked hunrouted
  layerOf_iff key layer := by
    constructor
    · intro hlayer
      have hkey := (isSome_layerOf_compacted_iff hlinked hunrouted key).1 (by rw [hlayer]; rfl)
      have hlt := ((Lifting.compact hlinked hunrouted).bounds key layer hlayer).2
      have hkeys := List.getElem?_eq_getElem hlt
      refine ⟨_, hkeys, ?_⟩
      rw [layers_compacted_eq hlinked hunrouted hkeys, List.mem_append, stayed, lifted,
        List.mem_filter, List.mem_filter, List.mem_reverse]
      by_cases hdepth : g.compacted.depth key = layer
      · exact .inl ⟨hkey, by simp [hlayer, hdepth]⟩
      · exact .inr ⟨hkey, by simp [hlayer, hdepth]⟩
    · rintro ⟨keys, hkeys, hkey⟩
      rw [layers_compacted_eq hlinked hunrouted hkeys, List.mem_append, stayed, lifted,
        List.mem_filter, List.mem_filter, decide_eq_true_eq, decide_eq_true_eq] at hkey
      rcases hkey with ⟨-, hlayer, -⟩ | ⟨-, hlayer, -⟩ <;> exact hlayer
  nodup_layers keys hkeys := by
    obtain ⟨layer, hlayer⟩ := List.mem_iff_getElem?.1 hkeys
    have hnodup := nodup_ranking_compacted hlinked hunrouted
    rw [layers_compacted_eq hlinked hunrouted hlayer, List.nodup_append]
    refine ⟨hnodup.filter _, (List.nodup_reverse.2 hnodup).filter _, ?_⟩
    rintro key hstayed _ hlifted rfl
    have hdepth := (List.mem_filter.1 hstayed).2
    have hother := (List.mem_filter.1 hlifted).2
    rw [decide_eq_true_eq] at hdepth hother
    exact hother.2 hdepth.2

/-! ## Edges between layers -/

theorem parent_mem_ranking_compacted {key parent : NodeKey} (hkey : key ∈ g.compacted.ranking)
    (hparent : parent ∈ g.parentsOf key) : parent ∈ g.compacted.ranking := by
  rw [ranking_compacted hlinked hunrouted] at hkey ⊢
  exact (parent_mem_ranking_levelled hlinked hunrouted hkey hparent).1

/-- A parent stands just below the lowest of its children, hence at most just below each of them. -/
theorem layer_lt_of_parent {key parent : NodeKey} {layer : Nat}
    (hlayer : g.compacted.layerOf key = some layer) (hparent : parent ∈ g.parentsOf key) :
    ∃ low < layer, g.compacted.layerOf parent = some low := by
  have hplaced : (g.compacted.layerOf key).isSome := by
    rw [hlayer]
    rfl
  have hkey := (isSome_layerOf_compacted_iff hlinked hunrouted key).1 hplaced
  have hchild : key ∈ g.childrenOf parent := hlinked.mem_childrenOf_iff.2 hparent
  obtain ⟨low, hleast, hlow⟩ := layerOf_compacted_of_child hlinked hunrouted
    (parent_mem_ranking_compacted hlinked hunrouted hkey hparent) hchild hplaced
  exact ⟨low, hleast.2 ⟨key, hchild, hlayer⟩, hlow⟩

/-! ## No layer is empty -/

/-- On every layer there is a node that stands there because of its depth. -/
theorem exists_on_layer_of_depth {d : Nat} (hd : d < g.compacted.layers.length) :
    ∃ key, g.HasDepth key d ∧ g.compacted.layerOf key = some d := by
  have hbounds : ∀ key layer, g.compacted.layerOf key = some layer →
      g.depth key ≤ layer ∧ layer < g.compacted.layers.length := by
    rw [← depth_compacted hlinked hunrouted]
    exact (Lifting.compact hlinked hunrouted).bounds
  obtain ⟨above, habove⟩ : ∃ above, d + 1 + above = g.compacted.layers.length :=
    ⟨_, Nat.add_sub_cancel' hd⟩
  -- down from the top layer, which has nothing above it
  induction above generalizing d with
  | zero =>
      have hlevel : d < g.levelled.layers.length := by
        rw [← (Lifting.compact hlinked hunrouted).length_layers]
        exact hd
      have hkeys := List.getElem?_eq_getElem hlevel
      obtain ⟨key, hkey⟩ := List.exists_mem_of_ne_nil _
        (layers_levelled_nodup hlinked hunrouted _ (List.mem_of_getElem? hkeys)).1
      obtain ⟨hsize, hdepth⟩ :=
        (mem_layers_levelled_iff hlinked hunrouted d key).1 ⟨_, hkeys, hkey⟩
      obtain ⟨layer, hlayer⟩ := Option.isSome_iff_exists.1
        ((isSome_layerOf_compacted_iff hlinked hunrouted key).2
          ((mem_ranking_compacted_iff hlinked hunrouted key).2 ⟨hsize, d, hdepth⟩))
      have := hbounds key layer hlayer
      rw [hdepth.depth_eq] at this
      obtain rfl : layer = d := by omega
      exact ⟨key, hdepth, hlayer⟩
  | succ above ih =>
      -- a parent that makes up the depth is pinned between its depth and this child
      obtain ⟨key, hdepth, hlayer⟩ := ih (d := d + 1) (by omega) (by omega)
      obtain ⟨parent, hparent, hparentDepth⟩ := (hasDepth_succ_iff.1 hdepth).2
      obtain ⟨low, hlow, hplace⟩ := layer_lt_of_parent hlinked hunrouted hlayer hparent
      have := hbounds parent low hplace
      rw [hparentDepth.depth_eq] at this
      obtain rfl : low = d := by omega
      exact ⟨parent, hparentDepth, hplace⟩

theorem layers_compacted_ne_nil {keys : List NodeKey} (hkeys : keys ∈ g.compacted.layers) :
    keys ≠ [] := by
  obtain ⟨layer, hlayer⟩ := List.mem_iff_getElem?.1 hkeys
  obtain ⟨key, -, hkey⟩ :=
    exists_on_layer_of_depth hlinked hunrouted (List.getElem?_eq_some_iff.1 hlayer).1
  obtain ⟨others, hothers, hmem⟩ := ((placed_compacted hlinked hunrouted).layerOf_iff key layer).1 hkey
  rw [hlayer, Option.some.injEq] at hothers
  rw [hothers]
  exact List.ne_nil_of_mem hmem

/-- There are as many layers as the longest path between ranked nodes has nodes. -/
theorem exists_parentPath_iff_lt_length (length : Nat) :
    (∃ key ∈ g.compacted.ranking, g.ParentPath key length) ↔ length < g.compacted.layers.length := by
  constructor
  · rintro ⟨key, hkey, hpath⟩
    obtain ⟨-, d, hdepth⟩ := (mem_ranking_compacted_iff hlinked hunrouted key).1 hkey
    obtain ⟨layer, hlayer⟩ := Option.isSome_iff_exists.1
      ((isSome_layerOf_compacted_iff hlinked hunrouted key).2 hkey)
    have hbounds := (Lifting.compact hlinked hunrouted).bounds key layer hlayer
    rw [(Lifting.compact hlinked hunrouted).depth_eq, hdepth.depth_eq] at hbounds
    have hle : length ≤ d := hdepth.2 hpath
    exact (hle.trans hbounds.1).trans_lt hbounds.2
  · intro hlt
    obtain ⟨key, hdepth, hlayer⟩ := exists_on_layer_of_depth hlinked hunrouted hlt
    refine ⟨key, (isSome_layerOf_compacted_iff hlinked hunrouted key).1 (by rw [hlayer]; rfl), ?_⟩
    exact hdepth.1

/-- Without ranked nodes there is no layer, else one more than the longest path has edges. -/
theorem layerCount_compacted :
    g.compacted.ranking = [] ∧ g.compacted.layers.length = 0 ∨
      ∃ longest, IsGreatest {length | ∃ key ∈ g.compacted.ranking, g.ParentPath key length} longest ∧
        g.compacted.layers.length = longest + 1 := by
  have hpath := exists_parentPath_iff_lt_length hlinked hunrouted
  cases hlength : g.compacted.layers.length with
  | zero =>
      refine .inl ⟨List.eq_nil_iff_forall_not_mem.2 fun key hkey => ?_, rfl⟩
      have := (hpath 0).1 ⟨key, hkey, .nil key⟩
      omega
  | succ longest =>
      refine .inr ⟨longest, ⟨(hpath longest).2 (by omega), fun length hlength' => ?_⟩, rfl⟩
      have := (hpath length).1 hlength'
      omega

end Compacted

/-! ## The whole layering -/

theorem assignLayers_of_unrouted (hunrouted : g.routed = false) (policy : CyclePolicy) :
    g.assignLayers policy =
      if policy = .strict ∧ g.levelled.unplaced ≠ [] then
        (g.clearLayout, .error (.cycle (g.levelled.cycleIds g.levelled.unplaced)))
      else
        ({ g.compacted with sorted := true },
          .ok ⟨g.compacted.layers.length, g.levelled.compact.2, g.levelled.unplaced.map g.idOf⟩) := by
  rw [assignLayers, hunrouted]
  rfl

theorem eq_compacted_of_assignLayers {g' : Graph α} {policy : CyclePolicy} {report : LayeringReport}
    (h : g.assignLayers policy = (g', .ok report)) :
    g.routed = false ∧ g' = { g.compacted with sorted := true } ∧
      report =
        ⟨g.compacted.layers.length, g.levelled.compact.2, g.levelled.unplaced.map g.idOf⟩ := by
  cases hrouted : g.routed with
  | true => simp [assignLayers, hrouted] at h
  | false =>
      rw [assignLayers_of_unrouted hrouted] at h
      split at h
      · simp at h
      · obtain ⟨hgraph, hreport⟩ := Prod.mk.inj h
        exact ⟨rfl, hgraph.symm, (Except.ok.inj hreport).symm⟩

/-- A graph that is consistent remains so without its layout. -/
theorem Consistent.clearLayout (h : Consistent g) : Consistent g.clearLayout := by
  refine ⟨h.toLinked.of_clearLayout_eq (by simp [Graph.clearLayout]), ?_, ?_, ?_⟩
  · intro key rank
    rw [rankOf_clearLayout]
    simp [Graph.clearLayout]
  · intro key layer
    rw [layerOf_clearLayout]
    simp [Graph.clearLayout]
  · simp [Graph.clearLayout]

/-- Whether a layering fails or not, it changes the layout only. -/
theorem clearLayout_assignLayers (h : Linked g) (policy : CyclePolicy) :
    (g.assignLayers policy).1.clearLayout = g.clearLayout := by
  cases hrouted : g.routed with
  | true => rw [Graph.assignLayers, if_pos hrouted]
  | false =>
      rw [assignLayers_of_unrouted hrouted]
      split
      · simp [Graph.clearLayout]
      · rw [← clearLayout_compacted h hrouted]
        rfl

theorem Consistent.assignLayers (h : Consistent g) (policy : CyclePolicy) :
    Consistent (g.assignLayers policy).1 := by
  have hlinked := h.toLinked.of_clearLayout_eq (clearLayout_assignLayers h.toLinked policy)
  refine ⟨hlinked, ?_⟩
  cases hrouted : g.routed with
  | true =>
      rw [Graph.assignLayers, if_pos hrouted]
      exact h.toPlaced
  | false =>
      rw [assignLayers_of_unrouted hrouted]
      split
      · exact h.clearLayout.toPlaced
      · exact (placed_compacted h.toLinked hrouted).congr rfl rfl rfl rfl

end JobGraph.Graph
