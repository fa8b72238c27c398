import JobGraph.Proofs.Graph.Frontiers

/-!
# Ranking the nodes

Before compaction, every node that has a depth stands on the layer of its depth, and the ranking
lists these nodes by depth: `layerOf_levelled_iff`, `mem_ranking_levelled_iff` and
`pairwise_ranking_levelled`.  Compaction changes no rank, so that what is said here about ranks holds
of the finished layering.
-/

namespace JobGraph.Graph

variable {α : Type} {g : Graph α}

/-! ## Placing lists of nodes -/

theorem clearLayout_placeFrontiers (g : Graph α) (frontiers : List (List NodeKey)) :
    (g.placeFrontiers frontiers).clearLayout = g.clearLayout := by
  have hnodes : (g.placeFrontiers frontiers).nodes.map
      (fun node => { node with rank := none, layer := none }) =
        g.nodes.map fun node => { node with rank := none, layer := none } := by
    apply Array.ext <;> simp [placeFrontiers]
  rw [clearLayout, hnodes]
  rfl

theorem node?_placeFrontiers (g : Graph α) (frontiers : List (List NodeKey)) (key : NodeKey) :
    (g.placeFrontiers frontiers).node? key = (g.node? key).map fun node =>
      { node with
        rank := frontiers.flatten.idxOf? key
        layer := frontiers.findIdx? fun frontier => frontier.contains key } := by
  simp [node?, placeFrontiers]

/-- A place in lists without repetitions is found by searching. -/
theorem findIdx?_contains_eq_some_iff {lists : List (List NodeKey)} (hnodup : lists.flatten.Nodup)
    (key : NodeKey) (n : Nat) :
    lists.findIdx? (fun list => list.contains key) = some n ↔
      ∃ keys, lists[n]? = some keys ∧ key ∈ keys := by
  rw [List.findIdx?_eq_some_iff_getElem]
  constructor
  · rintro ⟨hn, hmem, -⟩
    exact ⟨lists[n], List.getElem?_eq_getElem hn, by simpa using hmem⟩
  · rintro ⟨keys, hkeys, hmem⟩
    obtain ⟨hn, rfl⟩ := List.getElem?_eq_some_iff.1 hkeys
    refine ⟨hn, by simpa using hmem, fun m hm hcontains => ?_⟩
    have hdisjoint := List.pairwise_iff_getElem.1 (List.nodup_flatten.1 hnodup).2 m n (by omega) hn hm
    exact hdisjoint (by simpa using hcontains) hmem

theorem idxOf?_eq_some_iff_getElem? {list : List NodeKey} (hnodup : list.Nodup) (key : NodeKey)
    (n : Nat) : list.idxOf? key = some n ↔ list[n]? = some key := by
  rw [List.idxOf?_eq_some_iff]
  constructor
  · rintro ⟨hn, heq, -⟩
    rw [List.getElem?_eq_getElem hn, heq]
  · intro hget
    obtain ⟨hn, rfl⟩ := List.getElem?_eq_some_iff.1 hget
    refine ⟨hn, rfl, fun m hm => ?_⟩
    rw [hnodup.getElem_inj_iff]
    exact Nat.ne_of_lt hm

/-- Lists of nodes without repetitions describe the places that they give. -/
theorem placed_placeFrontiers {frontiers : List (List NodeKey)} (hnodup : frontiers.flatten.Nodup)
    (hsize : ∀ key ∈ frontiers.flatten, key < g.nodes.size) : Placed (g.placeFrontiers frontiers) where
  rankOf_iff key rank := by
    rw [show (g.placeFrontiers frontiers).ranking = frontiers.flatten from rfl,
      ← idxOf?_eq_some_iff_getElem? hnodup, rankOf, node?_placeFrontiers]
    cases hnode : g.node? key with
    | some node => rfl
    | none =>
        -- a key without a node stands in no list
        have hkey : key ∉ frontiers.flatten := fun hmem =>
          absurd (hsize key hmem) (not_lt.2 ((g.node?_eq_none_iff key).1 hnode))
        simp [List.idxOf?_eq_none_iff.2 hkey]
  layerOf_iff key layer := by
    rw [show (g.placeFrontiers frontiers).layers = frontiers from rfl,
      ← findIdx?_contains_eq_some_iff hnodup, layerOf, node?_placeFrontiers]
    cases hnode : g.node? key with
    | some node => rfl
    | none =>
        have hkey : key ∉ frontiers.flatten := fun hmem =>
          absurd (hsize key hmem) (not_lt.2 ((g.node?_eq_none_iff key).1 hnode))
        have hnone : frontiers.findIdx? (fun frontier => frontier.contains key) = none := by
          rw [List.findIdx?_eq_none_iff]
          intro list hlist
          simpa using fun hmem => hkey (List.mem_flatten.2 ⟨list, hlist, hmem⟩)
        simp only [Option.map_none, Option.bind_none, hnone]
  nodup_layers := (List.nodup_flatten.1 hnodup).1

/-- Lists of consecutive levels can be found again in what they make together. -/
theorem filter_flatten_of_level (level : NodeKey → Nat) (first : Nat)
    {lists : List (List NodeKey)} {n : Nat} {keys : List NodeKey}
    (hlevel : ∀ n list, lists[n]? = some list → ∀ key ∈ list, level key = first + n)
    (hkeys : lists[n]? = some keys) :
    lists.flatten.filter (fun key => level key = first + n) = keys := by
  induction lists generalizing first n with
  | nil => simp at hkeys
  | cons list rest ih =>
      have hhead : ∀ key ∈ list, level key = first := hlevel 0 list rfl
      have hrest : ∀ n list, rest[n]? = some list → ∀ key ∈ list, level key = first + 1 + n := by
        intro n other hother key hkey
        rw [hlevel (n + 1) other hother key hkey]
        omega
      rw [List.flatten_cons, List.filter_append]
      cases n with
      | zero =>
          have hnone : rest.flatten.filter (fun key => level key = first + 0) = [] := by
            rw [List.filter_eq_nil_iff]
            intro key hkey
            obtain ⟨other, hother, hmem⟩ := List.mem_flatten.1 hkey
            obtain ⟨m, hm⟩ := List.mem_iff_getElem?.1 hother
            have := hrest m other hm key hmem
            simp only [decide_eq_true_eq]
            omega
          rw [hnone, List.append_nil, List.filter_eq_self.2 (by simpa using hhead)]
          simpa using hkeys
      | succ n =>
          have hnone : list.filter (fun key => level key = first + (n + 1)) = [] := by
            rw [List.filter_eq_nil_iff]
            intro key hkey
            simp [hhead key hkey]
          rw [hnone, List.nil_append, Nat.add_comm n 1, ← Nat.add_assoc]
          exact ih (first + 1) hrest (by simpa using hkeys)

/-! ## The levels of a graph -/

/-- The graph with each node that has a depth on the layer of its depth: the layering before
compaction. -/
def levelled (g : Graph α) : Graph α :=
  g.clearLayout.placeFrontiers g.clearLayout.frontiers

theorem clearLayout_levelled (g : Graph α) : g.levelled.clearLayout = g.clearLayout := by
  rw [levelled, clearLayout_placeFrontiers]
  simp [clearLayout]

section Levelled

variable (hlinked : Linked g) (hunrouted : g.routed = false)

include hlinked hunrouted

theorem mem_layers_levelled_iff (d : Nat) (key : NodeKey) :
    (∃ keys, g.levelled.layers[d]? = some keys ∧ key ∈ keys) ↔
      key < g.nodes.size ∧ g.HasDepth key d := by
  have hbare : Linked g.clearLayout := hlinked.of_clearLayout_eq (by simp [clearLayout])
  have := mem_frontiers_iff hbare (by simpa [clearLayout] using hunrouted) d key
  rwa [clearLayout_size, hasDepth_of_parentsOf_eq (funext (parentsOf_clearLayout g))] at this

theorem layers_levelled_nodup : ∀ keys ∈ g.levelled.layers, keys ≠ [] ∧ keys.Nodup :=
  frontiers_nodup (hlinked.of_clearLayout_eq (by simp [clearLayout]))
    (by simpa [clearLayout] using hunrouted)

theorem depth_of_mem_layers_levelled {d : Nat} {keys : List NodeKey}
    (hkeys : g.levelled.layers[d]? = some keys) {key : NodeKey} (hkey : key ∈ keys) :
    g.depth key = d :=
  ((mem_layers_levelled_iff hlinked hunrouted d key).1 ⟨keys, hkeys, hkey⟩).2.depth_eq

theorem mem_ranking_levelled_iff (key : NodeKey) :
    key ∈ g.levelled.ranking ↔ key < g.nodes.size ∧ ∃ d, g.HasDepth key d := by
  rw [show g.levelled.ranking = g.levelled.layers.flatten from rfl, List.mem_flatten]
  constructor
  · rintro ⟨keys, hkeys, hkey⟩
    obtain ⟨d, hd⟩ := List.mem_iff_getElem?.1 hkeys
    obtain ⟨hsize, hdepth⟩ := (mem_layers_levelled_iff hlinked hunrouted d key).1 ⟨keys, hd, hkey⟩
    exact ⟨hsize, d, hdepth⟩
  · rintro ⟨hsize, d, hdepth⟩
    obtain ⟨keys, hd, hkey⟩ := (mem_layers_levelled_iff hlinked hunrouted d key).2 ⟨hsize, hdepth⟩
    exact ⟨keys, List.mem_of_getElem? hd, hkey⟩

theorem pairwise_ranking_levelled :
    g.levelled.ranking.Pairwise fun first second => g.depth first ≤ g.depth second := by
  refine List.pairwise_flatten.2 ⟨fun keys hkeys => ?_, List.pairwise_iff_getElem.2 ?_⟩
  · obtain ⟨d, hd⟩ := List.mem_iff_getElem?.1 hkeys
    refine List.pairwise_of_forall_mem_list fun first hfirst second hsecond => ?_
    rw [depth_of_mem_layers_levelled hlinked hunrouted hd hfirst,
      depth_of_mem_layers_levelled hlinked hunrouted hd hsecond]
  · -- of two levels the earlier one has the smaller depth
    intro m n hm hn hlt first hfirst second hsecond
    rw [depth_of_mem_layers_levelled hlinked hunrouted (List.getElem?_eq_getElem hm) hfirst,
      depth_of_mem_layers_levelled hlinked hunrouted (List.getElem?_eq_getElem hn) hsecond]
    exact hlt.le

theorem nodup_ranking_levelled : g.levelled.ranking.Nodup := by
  refine List.nodup_flatten.2 ⟨fun keys hkeys =>
    (layers_levelled_nodup hlinked hunrouted keys hkeys).2, List.pairwise_iff_getElem.2 ?_⟩
  intro m n hm hn hlt key hfirst hsecond
  have hm := depth_of_mem_layers_levelled hlinked hunrouted (List.getElem?_eq_getElem hm) hfirst
  have hn := depth_of_mem_layers_levelled hlinked hunrouted (List.getElem?_eq_getElem hn) hsecond
  omega

theorem placed_levelled : Placed g.levelled := by
  refine placed_placeFrontiers (nodup_ranking_levelled hlinked hunrouted) fun key hkey => ?_
  rw [clearLayout_size]
  exact ((mem_ranking_levelled_iff hlinked hunrouted key).1 hkey).1

theorem layerOf_levelled_iff (key : NodeKey) (d : Nat) :
    g.levelled.layerOf key = some d ↔ key < g.nodes.size ∧ g.HasDepth key d := by
  rw [(placed_levelled hlinked hunrouted).layerOf_iff, mem_layers_levelled_iff hlinked hunrouted]

theorem layerOf_levelled_of_mem {key : NodeKey} (hkey : key ∈ g.levelled.ranking) :
    g.levelled.layerOf key = some (g.depth key) := by
  obtain ⟨hsize, d, hdepth⟩ := (mem_ranking_levelled_iff hlinked hunrouted key).1 hkey
  rw [layerOf_levelled_iff hlinked hunrouted, hdepth.depth_eq]
  exact ⟨hsize, hdepth⟩

/-- Parents of ranked nodes are ranked, with a smaller depth. -/
theorem parent_mem_ranking_levelled {key parent : NodeKey} (hkey : key ∈ g.levelled.ranking)
    (hparent : parent ∈ g.parentsOf key) :
    parent ∈ g.levelled.ranking ∧ g.depth parent < g.depth key := by
  obtain ⟨-, d, hdepth⟩ := (mem_ranking_levelled_iff hlinked hunrouted key).1 hkey
  obtain ⟨e, he, hdepthParent⟩ := hdepth.lt_of_mem_parentsOf hparent
  refine ⟨(mem_ranking_levelled_iff hlinked hunrouted parent).2
    ⟨hlinked.lt_of_mem_parentsOf hparent, e, hdepthParent⟩, ?_⟩
  rwa [hdepth.depth_eq, hdepthParent.depth_eq]

/-- A parent comes before its dependents in the ranking. -/
theorem rank_lt_of_parent {key parent : NodeKey} {rank parentRank : Nat}
    (hkey : g.levelled.ranking[rank]? = some key)
    (hparentRank : g.levelled.ranking[parentRank]? = some parent)
    (hparent : parent ∈ g.parentsOf key) : parentRank < rank := by
  have hlt := (parent_mem_ranking_levelled hlinked hunrouted (List.mem_of_getElem? hkey) hparent).2
  obtain ⟨hr, rfl⟩ := List.getElem?_eq_some_iff.1 hkey
  obtain ⟨hp, rfl⟩ := List.getElem?_eq_some_iff.1 hparentRank
  rcases Nat.lt_trichotomy parentRank rank with hless | rfl | hmore
  · exact hless
  · exact absurd hlt (lt_irrefl _)
  · have := List.pairwise_iff_getElem.1 (pairwise_ranking_levelled hlinked hunrouted) _ _ hr hp hmore
    omega

/-- A level of depth is listed in ascending rank. -/
theorem layers_levelled_eq_filter {d : Nat} {keys : List NodeKey}
    (hkeys : g.levelled.layers[d]? = some keys) :
    keys = g.levelled.ranking.filter fun key => g.depth key = d := by
  have hlevel : ∀ n list, g.levelled.layers[n]? = some list → ∀ key ∈ list, g.depth key = 0 + n := by
    intro n list hlist key hkey
    rw [Nat.zero_add]
    exact depth_of_mem_layers_levelled hlinked hunrouted hlist hkey
  have hfound := filter_flatten_of_level g.depth 0 hlevel hkeys
  rw [Nat.zero_add] at hfound
  exact hfound.symm

end Levelled

end JobGraph.Graph
