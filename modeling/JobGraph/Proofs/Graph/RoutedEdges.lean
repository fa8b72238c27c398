import JobGraph.Proofs.Graph.Routing

/-!
# What routing leaves

* **Edges.**  The edges of the routed graph are the short edges and the steps of the chains.  So
  every waypoint has one parent and one child, and no step drops more than one layer.
* **Places.**  Waypoints follow the nodes that were on their layers; nothing else moves.
-/

namespace JobGraph.Graph

open scoped List

variable {α : Type} {g g' g₀ : Graph α}

/-! ## All long edges -/

/-- The loop comes to the dependent of every long edge. -/
theorem upperNodes_flatMap_longEdgesOf_perm (h : Placed g) :
    ((g.upperNodes (g.layers.length - 2)).flatMap g.longEdgesOf).Perm (g.edges.filter g.IsLong) := by
  have hupper : (g.keys.filter (· ∈ g.upperNodes (g.layers.length - 2))).Perm
      (g.upperNodes (g.layers.length - 2)) := by
    refine (List.perm_ext_iff_of_nodup (g.nodup_keys.filter _) (nodup_upperNodes h _)).2 ?_
    intro key
    rw [List.mem_filter, decide_eq_true_eq, mem_keys]
    refine and_iff_right_of_imp fun hkey => ?_
    obtain ⟨layer, -, -, hlayer⟩ := (mem_upperNodes_iff h).1 hkey
    exact g.lt_of_layerOf hlayer
  have hlower : (g.keys.filter fun key => !decide (key ∈ g.upperNodes (g.layers.length - 2))).flatMap
      g.longEdgesOf = [] := by
    rw [List.flatMap_eq_nil_iff]
    intro key hkey
    rw [longEdgesOf, List.filter_eq_nil_iff]
    intro edge hedge hlong
    obtain ⟨parent, -, rfl⟩ := List.mem_map.1 hedge
    obtain ⟨high, low, hhigh, -, hdrop⟩ := isLong_iff.1 (of_decide_eq_true hlong)
    have hlt := h.lt_length_of_layerOf hhigh
    have hmem : key ∈ g.upperNodes (g.layers.length - 2) :=
      (mem_upperNodes_iff h).2 ⟨high, by omega, by omega, hhigh⟩
    simpa [hmem] using (List.mem_filter.1 hkey).2
  rw [edges_filter_isLong]
  calc (g.upperNodes (g.layers.length - 2)).flatMap g.longEdgesOf
      _ ~ (g.keys.filter (· ∈ g.upperNodes (g.layers.length - 2))).flatMap g.longEdgesOf :=
        hupper.symm.flatMap_right _
      _ = (g.keys.filter (· ∈ g.upperNodes (g.layers.length - 2)) ++
            g.keys.filter fun key => !decide (key ∈ g.upperNodes (g.layers.length - 2))).flatMap
              g.longEdgesOf := by
        rw [List.flatMap_append, hlower, List.append_nil]
      _ ~ g.keys.flatMap g.longEdgesOf := (List.filter_append_perm _ g.keys).flatMap_right _

/-! ## Steps of a chain -/

/-- A path over the layers between two places steps down one layer at a time. -/
theorem layer_of_mem_pathEdges {place : NodeKey → Option Nat} {first last : NodeKey}
    {path : List NodeKey} {low count : Nat}
    (hpath : path.map place = (List.range' (low + 1) count).reverse.map some)
    (hfirst : place first = some (low + count + 1)) (hlast : place last = some low) :
    ∀ edge ∈ pathEdges first (path ++ [last]),
      ∃ layer, place edge.dependent = some (layer + 1) ∧ place edge.parent = some layer := by
  induction count generalizing first path with
  | zero =>
      obtain rfl : path = [] := by simpa using hpath
      intro edge hedge
      obtain rfl : edge = ⟨first, last⟩ := by simpa [pathEdges] using hedge
      exact ⟨low, hfirst, hlast⟩
  | succ count ih =>
      rw [List.range'_1_concat, List.reverse_append, List.reverse_singleton,
        List.singleton_append, List.map_cons] at hpath
      obtain ⟨next, rest, rfl, hnext, hrest⟩ := List.map_eq_cons_iff.1 hpath
      have hplace : place next = some (low + count + 1) := by
        rw [hnext, Nat.add_right_comm]
      intro edge hedge
      rcases List.mem_cons.1 hedge with rfl | hedge
      · exact ⟨low + count + 1, hfirst, hplace⟩
      · exact ih hrest hplace edge hedge

theorem map_dependent_steps (chains : List Chain) :
    (chains.flatMap Chain.steps).map Edge.dependent =
      chains.flatMap fun chain => chain.edge.dependent :: chain.waypoints := by
  rw [List.map_flatMap]
  exact congrArg chains.flatMap (funext fun chain => map_dependent_pathEdges_concat _ _ _)

theorem map_parent_steps (chains : List Chain) :
    (chains.flatMap Chain.steps).map Edge.parent =
      chains.flatMap fun chain => chain.waypoints ++ [chain.edge.parent] := by
  rw [List.map_flatMap]
  exact congrArg chains.flatMap (funext fun chain => map_parent_pathEdges _ _)

/-- Ends of edges do not count for a node that is none of them. -/
theorem count_flatMap_waypoints {key : NodeKey} {chains : List Chain}
    (hends : ∀ chain ∈ chains, chain.edge.dependent ≠ key ∧ chain.edge.parent ≠ key) :
    (chains.flatMap fun chain => chain.edge.dependent :: chain.waypoints).count key =
        (chains.flatMap Chain.waypoints).count key ∧
      (chains.flatMap fun chain => chain.waypoints ++ [chain.edge.parent]).count key =
        (chains.flatMap Chain.waypoints).count key := by
  induction chains with
  | nil => exact ⟨rfl, rfl⟩
  | cons chain rest ih =>
      obtain ⟨⟨hdependent, hparent⟩, hrest⟩ := List.forall_mem_cons.1 hends
      obtain ⟨hleft, hright⟩ := ih hrest
      simp only [List.flatMap_cons, List.count_append, hleft, hright]
      simp [hdependent, hparent]

/-! ## The routed graph -/

/-- `g'` is `g` with a chain of waypoints in the place of every long edge. -/
structure Routed (g g' : Graph α) (chains : List Chain) : Prop where
  /-- There is one chain for each occurrence of a long edge. -/
  chains_perm : (chains.map Chain.edge).Perm (g.edges.filter g.IsLong)
  /-- Every other edge is kept, and the long ones give way to the steps of their chains. -/
  edges_perm : g'.edges.Perm
    (g.edges.filter (fun edge => ¬ g.IsLong edge) ++ chains.flatMap Chain.steps)
  /-- The waypoints are the new nodes, chain by chain in the order of creation. -/
  keys_eq : g'.keys = g.keys ++ chains.flatMap Chain.waypoints
  waypointKeys_eq : g'.waypointKeys = chains.flatMap Chain.waypoints
  /-- A chain has one waypoint on every layer between the ends of its edge, the highest first. -/
  layerOf_waypoints : ∀ chain ∈ chains, ∃ high low,
    g.layerOf chain.edge.dependent = some high ∧ g.layerOf chain.edge.parent = some low ∧
      chain.waypoints.map g'.layerOf = (List.range' (low + 1) (high - low - 1)).reverse.map some
  ends : ∀ chain ∈ chains, ∀ key ∈ chain.waypoints,
    (g'.node? key).bind Node.ends? = some (chain.edge.dependent, chain.edge.parent)
  unranked : ∀ key ∈ g'.waypointKeys, g'.rankOf key = none
  length_parentsOf : ∀ key ∈ g'.waypointKeys, (g'.parentsOf key).length = 1
  length_childrenOf : ∀ key ∈ g'.waypointKeys, (g'.childrenOf key).length = 1
  not_isLong : ∀ edge ∈ g'.edges, ¬ g'.IsLong edge
  /-- The nodes there were keep their ids, kinds, payloads, ranks, layers and positions. -/
  bareNode?_eq : ∀ key ∈ g.keys, g'.bareNode? key = g.bareNode? key
  realKeys_eq : g'.realKeys = g.realKeys
  ranking_eq : g'.ranking = g.ranking
  /-- The waypoints of a layer follow its nodes, in the order of creation. -/
  layers_eq : ∀ layer : Nat, g'.layers[layer]? = g.layers[layer]?.map fun keys =>
    keys ++ g'.waypointKeys.filter fun key => g'.layerOf key = some layer

/-- The mark that a graph was routed does not matter. -/
theorem Routed.of_markRouted {chains : List Chain} (h : Routed { g with routed := true } g' chains) :
    Routed g g' chains where
  chains_perm := h.chains_perm
  edges_perm := h.edges_perm
  keys_eq := h.keys_eq
  waypointKeys_eq := h.waypointKeys_eq
  layerOf_waypoints := h.layerOf_waypoints
  ends := h.ends
  unranked := h.unranked
  length_parentsOf := h.length_parentsOf
  length_childrenOf := h.length_childrenOf
  not_isLong := h.not_isLong
  bareNode?_eq := h.bareNode?_eq
  realKeys_eq := h.realKeys_eq
  ranking_eq := h.ranking_eq
  layers_eq := h.layers_eq

namespace Splitting

variable {state : Graph α × Nat} {chains : List Chain}

theorem isLong_of_chain (hperm : (chains.map Chain.edge).Perm (g₀.edges.filter g₀.IsLong))
    {chain : Chain} (hchain : chain ∈ chains) :
    chain.edge ∈ g₀.edges ∧ g₀.IsLong chain.edge := by
  have := List.mem_filter.1 (hperm.mem_iff.1 (List.mem_map_of_mem hchain))
  exact ⟨this.1, of_decide_eq_true this.2⟩

theorem mem_keys_of_chain (hperm : (chains.map Chain.edge).Perm (g₀.edges.filter g₀.IsLong))
    (hlinked : Linked g₀) {chain : Chain} (hchain : chain ∈ chains) :
    chain.edge.dependent ∈ g₀.keys ∧ chain.edge.parent ∈ g₀.keys :=
  hlinked.mem_keys_of_mem_edges (isLong_of_chain hperm hchain).1

section AllSplit

variable (h : Splitting g₀ state chains)
  (hperm : (chains.map Chain.edge).Perm (g₀.edges.filter g₀.IsLong))

include h hperm

theorem edges_perm_of_chains : state.1.edges.Perm
    (g₀.edges.filter (fun edge => ¬ g₀.IsLong edge) ++ chains.flatMap Chain.steps) := by
  refine (List.perm_append_left_iff (chains.map Chain.edge)).1 ?_
  have hparts := List.filter_append_perm g₀.IsLong g₀.edges
  calc chains.map Chain.edge ++ state.1.edges
      _ ~ chains.flatMap Chain.steps ++ g₀.edges := h.edges_perm
      _ ~ g₀.edges ++ chains.flatMap Chain.steps := List.perm_append_comm
      _ ~ g₀.edges.filter g₀.IsLong ++ g₀.edges.filter (fun edge => ¬ g₀.IsLong edge) ++
            chains.flatMap Chain.steps := by simpa using hparts.symm.append_right _
      _ ~ chains.map Chain.edge ++ g₀.edges.filter (fun edge => ¬ g₀.IsLong edge) ++
            chains.flatMap Chain.steps := (hperm.symm.append_right _).append_right _
      _ = _ := List.append_assoc _ _ _

theorem count_eq_sum :
    state.2 = ((g₀.edges.filter g₀.IsLong).map fun edge => g₀.drop edge - 1).sum := by
  have hlength : ∀ chain ∈ chains, chain.waypoints.length = g₀.drop chain.edge - 1 := by
    intro chain hchain
    have := congrArg List.length (h.layerOf_waypoints chain hchain)
    rw [List.length_map, List.length_map,
      length_crossedLayers (isLong_of_chain hperm hchain).2] at this
    exact this
  calc state.2
      _ = (chains.map fun chain => chain.waypoints.length).sum := by
        rw [h.count_eq, List.length_flatMap]
      _ = ((chains.map Chain.edge).map fun edge => g₀.drop edge - 1).sum := by
        rw [List.map_map]
        exact congrArg List.sum (List.map_congr_left hlength)
      _ = _ := (hperm.map _).sum_eq

/-- Each waypoint is once a dependent and once a parent. -/
theorem count_ends_of_waypoint (hlinked : Linked g₀) {key : NodeKey}
    (hkey : key ∈ chains.flatMap Chain.waypoints) :
    (state.1.edges.map Edge.dependent).count key = 1 ∧
      (state.1.edges.map Edge.parent).count key = 1 := by
  -- a waypoint is no end of an edge that there was, and it belongs to one chain only
  have hnew : key ∉ g₀.keys := h.not_mem_keys_of_added hkey
  have hone : (chains.flatMap Chain.waypoints).count key = 1 :=
    List.count_eq_one_of_mem h.nodup_added hkey
  have hshort : ∀ edge ∈ g₀.edges.filter (fun edge => ¬ g₀.IsLong edge),
      edge.dependent ≠ key ∧ edge.parent ≠ key := by
    intro edge hedge
    have hmem := mem_edges_iff.1 (List.mem_filter.1 hedge).1
    constructor
    · rintro rfl
      exact hnew ((mem_keys _ _).2 (g₀.lt_of_mem_parentsOf hmem))
    · rintro rfl
      exact hnew ((mem_keys _ _).2 (hlinked.lt_of_mem_parentsOf hmem))
  have hends : ∀ chain ∈ chains, chain.edge.dependent ≠ key ∧ chain.edge.parent ≠ key := by
    intro chain hchain
    obtain ⟨hdependent, hparent⟩ := mem_keys_of_chain hperm hlinked hchain
    exact ⟨fun heq => hnew (heq ▸ hdependent), fun heq => hnew (heq ▸ hparent)⟩
  obtain ⟨hleft, hright⟩ := count_flatMap_waypoints hends
  have hedges := h.edges_perm_of_chains hperm
  constructor
  · rw [(hedges.map _).count_eq, List.map_append, List.count_append, map_dependent_steps, hleft,
      hone, List.count_eq_zero.2]
    intro hmem
    obtain ⟨edge, hedge, heq⟩ := List.mem_map.1 hmem
    exact (hshort edge hedge).1 heq
  · rw [(hedges.map _).count_eq, List.map_append, List.count_append, map_parent_steps, hright,
      hone, List.count_eq_zero.2]
    intro hmem
    obtain ⟨edge, hedge, heq⟩ := List.mem_map.1 hmem
    exact (hshort edge hedge).2 heq

theorem layers_of_chain {chain : Chain} (hchain : chain ∈ chains) :
    ∃ high low, g₀.layerOf chain.edge.dependent = some high ∧
      g₀.layerOf chain.edge.parent = some low ∧ low + 2 ≤ high ∧
      chain.waypoints.map state.1.layerOf =
        (List.range' (low + 1) (high - low - 1)).reverse.map some := by
  obtain ⟨high, low, hhigh, hlow, hlong⟩ := isLong_iff.1 (isLong_of_chain hperm hchain).2
  refine ⟨high, low, hhigh, hlow, hlong, ?_⟩
  rw [h.layerOf_waypoints chain hchain, crossedLayers_eq_of_layers hhigh hlow, layersBetween]

theorem not_isLong_of_mem_edges (hlinked : Linked g₀) {edge : Edge}
    (hedge : edge ∈ state.1.edges) : ¬ state.1.IsLong edge := by
  rw [(h.edges_perm_of_chains hperm).mem_iff, List.mem_append] at hedge
  rw [isLong_iff]
  rcases hedge with hedge | hedge
  · -- the ends of an edge that is kept stand where they stood
    obtain ⟨hmem, hshort⟩ := List.mem_filter.1 hedge
    rw [decide_eq_true_eq, isLong_iff] at hshort
    have hparent := mem_edges_iff.1 hmem
    rwa [h.layerOf_eq ((mem_keys _ _).2 (g₀.lt_of_mem_parentsOf hparent)),
      h.layerOf_eq ((mem_keys _ _).2 (hlinked.lt_of_mem_parentsOf hparent))]
  · -- a step of a chain drops one layer
    obtain ⟨chain, hchain, hstep⟩ := List.mem_flatMap.1 hedge
    obtain ⟨high, low, hhigh, hlow, hlong, hpath⟩ := h.layers_of_chain hperm hchain
    obtain ⟨hdependent, hparent⟩ := mem_keys_of_chain hperm hlinked hchain
    rw [← h.layerOf_eq hdependent] at hhigh
    rw [← h.layerOf_eq hparent] at hlow
    have hhigh' : state.1.layerOf chain.edge.dependent = some (low + (high - low - 1) + 1) := by
      rw [hhigh]
      congr 1
      omega
    obtain ⟨layer, hupper, hlower⟩ := layer_of_mem_pathEdges hpath hhigh' hlow edge hstep
    rintro ⟨top, bottom, htop, hbottom, hdrop⟩
    rw [hupper, Option.some.injEq] at htop
    rw [hlower, Option.some.injEq] at hbottom
    omega

/-- When all long edges are split, the graph is routed. -/
theorem routed (hlinked : Linked g₀) (hnone : g₀.waypointKeys = []) :
    Routed g₀ state.1 chains := by
  have hwaypoints : state.1.waypointKeys = chains.flatMap Chain.waypoints := by
    rw [h.waypointKeys_eq, hnone, List.nil_append]
  refine { chains_perm := hperm, edges_perm := h.edges_perm_of_chains hperm, keys_eq := h.keys_eq
           waypointKeys_eq := hwaypoints, layerOf_waypoints := ?_, ends := h.ends, unranked := ?_
           length_parentsOf := ?_, length_childrenOf := ?_
           not_isLong := fun edge hedge => h.not_isLong_of_mem_edges hperm hlinked hedge
           bareNode?_eq := h.bareNode?_eq, realKeys_eq := h.realKeys_eq, ranking_eq := h.ranking_eq
           layers_eq := by rw [hwaypoints]; exact h.layers_eq }
  · intro chain hchain
    obtain ⟨high, low, hhigh, hlow, -, hpath⟩ := h.layers_of_chain hperm hchain
    exact ⟨high, low, hhigh, hlow, hpath⟩
  · intro key hkey
    rw [hwaypoints] at hkey
    obtain ⟨chain, hchain, hkey⟩ := List.mem_flatMap.1 hkey
    exact h.unranked chain hchain key hkey
  · intro key hkey
    rw [hwaypoints] at hkey
    rw [← count_map_dependent_edges]
    exact (h.count_ends_of_waypoint hperm hlinked hkey).1
  · intro key hkey
    rw [hwaypoints] at hkey
    rw [← h.consistent.toLinked.count_map_parent_edges]
    exact (h.count_ends_of_waypoint hperm hlinked hkey).2

end AllSplit

end Splitting

/-! ## The whole routing -/

theorem Consistent.markRouted (h : Consistent g) : Consistent { g with routed := true } :=
  ⟨⟨h.count_parentsOf, h.realKeys_eq, h.waypointKeys_eq, fun hrouted => nomatch hrouted⟩,
    h.toPlaced.congr rfl rfl rfl rfl⟩

/-- A routing that does not fail splits all long edges. -/
theorem exists_splitting_routeLongEdges (h : Consistent g) (hsorted : g.sorted = true)
    (hunrouted : g.routed = false) :
    ∃ state chains, g.routeLongEdges = (state.1, .ok state.2) ∧
      Splitting { g with routed := true } state chains ∧
      (chains.map Chain.edge).Perm (g.edges.filter g.IsLong) := by
  obtain ⟨chains, hchains, hedges⟩ :=
    Splitting.foldl_splitEdgesOfLayer h.markRouted rfl (g.layers.length - 2)
  refine ⟨_, chains, ?_, hchains, ?_⟩
  · simp [routeLongEdges, hsorted, hunrouted]
  · rw [hedges]
    exact upperNodes_flatMap_longEdgesOf_perm h.markRouted.toPlaced

theorem Consistent.routeLongEdges (h : Consistent g) : Consistent g.routeLongEdges.1 := by
  cases hsorted : g.sorted with
  | false => simpa [Graph.routeLongEdges, hsorted] using h
  | true =>
      cases hrouted : g.routed with
      | true => simpa [Graph.routeLongEdges, hsorted, hrouted] using h
      | false =>
          obtain ⟨state, chains, heq, hsplitting, -⟩ :=
            exists_splitting_routeLongEdges h hsorted hrouted
          rw [heq]
          exact hsplitting.consistent

end JobGraph.Graph
