import JobGraph.Proofs.Graph.Chains

/-!
# Splitting all long edges

The loop walks over snapshots: of a layer when it comes to it, and of the parents of a node when it
comes to that.  `Splitting` is what it keeps, with a list of all chains so far.

* **Snapshots.**  A chain changes the parents of its dependent and of waypoints only.  Hence a node
  that the loop has not come to yet has the parents it had at the start.
* **Layers.**  The chains of the layers below have their waypoints further down.  Hence a layer that
  the loop comes to still lists the nodes it listed at the start.
* **Edges.**  The edges left of the node in hand include those the loop has still to look at, each
  at least as often.  So no edge is missing when it is to be split.

In the end there is one chain for each long edge, and counted with repetitions nothing else has
changed.
-/

namespace JobGraph.Graph

open scoped List

variable {α : Type} {g g' g₀ : Graph α}

/-! ## Long edges -/

/-- By how many layers an edge between placed nodes drops. -/
def drop (g : Graph α) (edge : Edge) : Nat :=
  (g.layerOf edge.dependent).getD 0 - (g.layerOf edge.parent).getD 0

/-- The edge joins placed nodes and drops two or more layers. -/
def IsLong (g : Graph α) (edge : Edge) : Prop :=
  (g.layerOf edge.dependent).isSome ∧ (g.layerOf edge.parent).isSome ∧ 2 ≤ g.drop edge

instance (g : Graph α) (edge : Edge) : Decidable (g.IsLong edge) :=
  inferInstanceAs (Decidable (_ ∧ _ ∧ _))

/-- The long edges of a node to its parents. -/
def longEdgesOf (g : Graph α) (key : NodeKey) : List Edge :=
  ((g.parentsOf key).map (Edge.mk key)).filter g.IsLong

theorem isLong_iff {edge : Edge} :
    g.IsLong edge ↔ ∃ high low, g.layerOf edge.dependent = some high ∧
      g.layerOf edge.parent = some low ∧ low + 2 ≤ high := by
  unfold IsLong drop
  cases g.layerOf edge.dependent with
  | none => simp
  | some high =>
      cases g.layerOf edge.parent with
      | none => simp
      | some low =>
          simp only [Option.isSome_some, Option.getD_some, Option.some.injEq, true_and]
          constructor
          · exact fun h => ⟨high, low, rfl, rfl, by omega⟩
          · rintro ⟨_, _, rfl, rfl, h⟩
            omega

theorem crossedLayers_eq_of_layers {dependent parent : NodeKey} {high low : Nat}
    (hhigh : g.layerOf dependent = some high) (hlow : g.layerOf parent = some low) :
    g.crossedLayers dependent parent = layersBetween high low := by
  simp only [crossedLayers, hhigh, hlow]

/-- The edges that cross layers are the long ones. -/
theorem crossedLayers_ne_nil_iff {dependent parent : NodeKey} :
    g.crossedLayers dependent parent ≠ [] ↔ g.IsLong ⟨dependent, parent⟩ := by
  rw [isLong_iff]
  constructor
  · intro h
    unfold crossedLayers at h
    split at h
    · rename_i high low hhigh hlow
      refine ⟨high, low, hhigh, hlow, ?_⟩
      by_contra hshort
      rw [layersBetween, show high - low - 1 = 0 by omega] at h
      exact h rfl
    · exact absurd rfl h
  · rintro ⟨high, low, hhigh, hlow, hlong⟩ hnil
    have hlength := congrArg List.length hnil
    rw [crossedLayers_eq_of_layers hhigh hlow, layersBetween, List.length_reverse,
      List.length_range', List.length_nil] at hlength
    omega

theorem length_crossedLayers {edge : Edge} (hlong : g.IsLong edge) :
    (g.crossedLayers edge.dependent edge.parent).length = g.drop edge - 1 := by
  obtain ⟨high, low, hhigh, hlow, -⟩ := isLong_iff.1 hlong
  rw [crossedLayers_eq_of_layers hhigh hlow, layersBetween, List.length_reverse,
    List.length_range', drop, hhigh, hlow]
  rfl

/-- An edge crosses layers below its dependent only. -/
theorem lt_of_mem_crossedLayers_of_layerOf {dependent parent : NodeKey} {high layer : Nat}
    (hhigh : g.layerOf dependent = some high)
    (hlayer : layer ∈ g.crossedLayers dependent parent) : layer < high := by
  unfold crossedLayers at hlayer
  split at hlayer
  · rename_i top low htop _
    obtain rfl : top = high := by simpa [htop] using hhigh
    rw [layersBetween, List.mem_reverse, List.mem_range'_1] at hlayer
    omega
  · exact absurd hlayer List.not_mem_nil

theorem edges_filter_isLong : g.edges.filter g.IsLong = g.keys.flatMap g.longEdgesOf :=
  List.filter_flatMap

theorem dependent_of_mem_longEdgesOf {key : NodeKey} {edge : Edge}
    (hedge : edge ∈ g.longEdgesOf key) : edge.dependent = key := by
  obtain ⟨parent, -, rfl⟩ := List.mem_map.1 (List.mem_filter.1 hedge).1
  rfl

/-! ## What the loop keeps -/

/-- The graph `g₀` with some edges replaced by chains, and the number of waypoints of these. -/
structure Splitting (g₀ : Graph α) (state : Graph α × Nat) (chains : List Chain) : Prop extends
    Grown g₀ state.1 (chains.flatMap Chain.waypoints) where
  count_eq : state.2 = (chains.flatMap Chain.waypoints).length
  consistent : Consistent state.1
  edges_perm : (chains.map Chain.edge ++ state.1.edges).Perm
    (chains.flatMap Chain.steps ++ g₀.edges)
  layerOf_waypoints : ∀ chain ∈ chains, chain.waypoints.map state.1.layerOf =
    (g₀.crossedLayers chain.edge.dependent chain.edge.parent).map some
  unranked : ∀ chain ∈ chains, ∀ key ∈ chain.waypoints, state.1.rankOf key = none
  ends : ∀ chain ∈ chains, ∀ key ∈ chain.waypoints,
    (state.1.node? key).bind Node.ends? = some (chain.edge.dependent, chain.edge.parent)
  parentsOf_eq : ∀ key ∈ g₀.keys, (∀ chain ∈ chains, chain.edge.dependent ≠ key) →
    state.1.parentsOf key = g₀.parentsOf key

namespace Splitting

variable {state : Graph α × Nat} {chains : List Chain}

theorem start (h : Consistent g₀) : Splitting g₀ (g₀, 0) [] where
  toGrown := .refl g₀
  count_eq := rfl
  consistent := h
  edges_perm := .refl g₀.edges
  layerOf_waypoints := by simp
  unranked := by simp
  ends := by simp
  parentsOf_eq _ _ _ := rfl

theorem crossedLayers_eq (h : Splitting g₀ state chains) {dependent parent : NodeKey}
    (hdependent : dependent ∈ g₀.keys) (hparent : parent ∈ g₀.keys) :
    state.1.crossedLayers dependent parent = g₀.crossedLayers dependent parent := by
  rw [crossedLayers, crossedLayers, h.layerOf_eq hdependent, h.layerOf_eq hparent]

/-- One more edge is replaced. -/
theorem snoc (h : Splitting g₀ state chains) {count : Nat} {chain : Chain}
    (h' : Replaced state.1 g' chain) (hcount : count = state.2 + chain.waypoints.length)
    (hdependent : chain.edge.dependent ∈ g₀.keys) (hparent : chain.edge.parent ∈ g₀.keys) :
    Splitting g₀ (g', count) (chains ++ [chain]) := by
  have hwaypoints : (chains ++ [chain]).flatMap Chain.waypoints =
      chains.flatMap Chain.waypoints ++ chain.waypoints := by simp
  have hmem : ∀ other ∈ chains, ∀ key ∈ other.waypoints, key ∈ state.1.keys :=
    fun other hother key hkey => h.mem_keys_of_added (List.mem_flatMap.2 ⟨other, hother, hkey⟩)
  have hcases : ∀ {motive : Chain → Prop}, (∀ other ∈ chains, motive other) → motive chain →
      ∀ other ∈ chains ++ [chain], motive other := by
    intro motive hold hnew
    rw [List.forall_mem_append]
    exact ⟨hold, by simpa using hnew⟩
  refine { toGrown := by rw [hwaypoints]; exact h.toGrown.trans h'.toGrown
           count_eq := by rw [hwaypoints, List.length_append, ← h.count_eq, hcount]
           consistent := h'.consistent
           edges_perm := ?_, layerOf_waypoints := hcases ?_ ?_, unranked := hcases ?_ h'.unranked
           ends := hcases ?_ h'.ends, parentsOf_eq := ?_ }
  · have hsteps : (chains ++ [chain]).flatMap Chain.steps =
        chains.flatMap Chain.steps ++ chain.steps := by simp
    rw [List.map_append, List.map_singleton, List.append_assoc, List.singleton_append, hsteps]
    calc chains.map Chain.edge ++ chain.edge :: g'.edges
        _ ~ chains.map Chain.edge ++ (chain.steps ++ state.1.edges) := h'.edges_perm.append_left _
        _ ~ chain.steps ++ (chains.map Chain.edge ++ state.1.edges) :=
          List.perm_append_comm_assoc _ _ _
        _ ~ chain.steps ++ (chains.flatMap Chain.steps ++ g₀.edges) := h.edges_perm.append_left _
        _ ~ chains.flatMap Chain.steps ++ (chain.steps ++ g₀.edges) :=
          List.perm_append_comm_assoc _ _ _
        _ = chains.flatMap Chain.steps ++ chain.steps ++ g₀.edges := (List.append_assoc _ _ _).symm
  · intro other hother
    rw [← h.layerOf_waypoints other hother]
    exact List.map_congr_left fun key hkey => h'.layerOf_eq (hmem other hother key hkey)
  · rw [h'.layerOf_waypoints, h.crossedLayers_eq hdependent hparent]
  · intro other hother key hkey
    rw [h'.rankOf_eq (hmem other hother key hkey)]
    exact h.unranked other hother key hkey
  · intro other hother key hkey
    rw [h'.ends?_eq (hmem other hother key hkey)]
    exact h.ends other hother key hkey
  · intro key hkey hnone
    rw [List.forall_mem_append, List.forall_mem_singleton] at hnone
    rw [h'.parentsOf_eq key (h.mem_keys_of_mem hkey) (Ne.symm hnone.2), h.parentsOf_eq key hkey hnone.1]

/-! ## The edges of one node -/

/-- One edge is split if it is long. -/
theorem splitEdge (h : Splitting g₀ state chains) (hrouted : g₀.routed = true)
    {dependent parent : NodeKey} {rest : List NodeKey}
    (hold : ∀ key ∈ parent :: rest, key ∈ g₀.keys) (hdependent : dependent ∈ g₀.keys)
    (hleft : ∀ key, (parent :: rest).count key ≤ (state.1.parentsOf dependent).count key) :
    ∃ more, Splitting g₀ (splitEdge dependent state parent) (chains ++ more) ∧
      more.map Chain.edge = [⟨dependent, parent⟩].filter g₀.IsLong ∧
      ∀ key, rest.count key ≤
        ((Graph.splitEdge dependent state parent).1.parentsOf dependent).count key := by
  have hparent := hold parent List.mem_cons_self
  have hcrossed := h.crossedLayers_eq hdependent hparent
  by_cases hlong : g₀.IsLong ⟨dependent, parent⟩
  · have hne : state.1.crossedLayers dependent parent ≠ [] := by
      rw [hcrossed]
      exact crossedLayers_ne_nil_iff.2 hlong
    -- the edge is among those that are left, so there is one to remove
    have hedge : parent ∈ state.1.parentsOf dependent := by
      have := hleft parent
      rw [List.count_cons_self] at this
      exact List.count_pos_iff.1 (by omega)
    obtain ⟨chain, hchain, hreplaced, hcount⟩ :=
      replaced_splitEdge h.consistent (h.routed_eq.trans hrouted) hedge hne state.2
    refine ⟨[chain], h.snoc hreplaced hcount (by rwa [hchain]) (by rwa [hchain]), ?_, ?_⟩
    · simp [hchain, hlong]
    · -- one edge is gone from what is left and from what is still to come
      intro key
      have hperm := hreplaced.edges_perm.count_eq ⟨dependent, key⟩
      have := hleft key
      rw [hchain, List.count_cons, List.count_append, count_edges, count_edges] at hperm
      rw [List.count_cons] at this
      simp only [beq_iff_eq, Edge.mk.injEq, true_and] at hperm this
      show _ ≤ ((Graph.splitEdge dependent (state.1, state.2) parent).1.parentsOf dependent).count key
      omega
  · have hnil : state.1.crossedLayers dependent parent = [] := by
      rw [hcrossed]
      exact not_not.1 (mt crossedLayers_ne_nil_iff.1 hlong)
    have hstays : Graph.splitEdge dependent state parent = state := by
      rw [Graph.splitEdge, hnil]
      rfl
    rw [hstays]
    refine ⟨[], by rwa [List.append_nil], by simp [hlong], fun key => ?_⟩
    exact (List.count_le_count_cons).trans (hleft key)

/-- A list of edges of one node is split. -/
theorem foldl_splitEdge (h : Splitting g₀ state chains) (hrouted : g₀.routed = true)
    {dependent : NodeKey} (hdependent : dependent ∈ g₀.keys) {parents : List NodeKey}
    (hold : ∀ key ∈ parents, key ∈ g₀.keys)
    (hleft : ∀ key, parents.count key ≤ (state.1.parentsOf dependent).count key) :
    ∃ more, Splitting g₀ (parents.foldl (Graph.splitEdge dependent) state) (chains ++ more) ∧
      more.map Chain.edge = (parents.map (Edge.mk dependent)).filter g₀.IsLong := by
  induction parents generalizing state chains with
  | nil => exact ⟨[], by rwa [List.append_nil], rfl⟩
  | cons parent rest ih =>
      obtain ⟨first, hfirst, hedges, hrest⟩ := h.splitEdge hrouted hold hdependent hleft
      obtain ⟨more, hmore, hmoreEdges⟩ :=
        ih hfirst (fun key hkey => hold key (List.mem_cons_of_mem parent hkey)) hrest
      refine ⟨first ++ more, by rwa [← List.append_assoc], ?_⟩
      rw [List.map_append, hedges, hmoreEdges, ← List.filter_append]
      rfl

/-- The edges of a node are those it had at the start, unless it is the dependent of a chain. -/
theorem splitEdgesOf (h : Splitting g₀ state chains) (hlinked : Linked g₀)
    (hrouted : g₀.routed = true) {key : NodeKey} (hkey : key ∈ g₀.keys)
    (hfresh : ∀ chain ∈ chains, chain.edge.dependent ≠ key) :
    ∃ more, Splitting g₀ (splitEdgesOf state key) (chains ++ more) ∧
      more.map Chain.edge = g₀.longEdgesOf key := by
  have hparents := h.parentsOf_eq key hkey hfresh
  rw [longEdgesOf, Graph.splitEdgesOf, ← hparents]
  refine h.foldl_splitEdge hrouted hkey (fun parent hparent => ?_) fun _ => le_rfl
  rw [hparents] at hparent
  exact (mem_keys g₀ parent).2 (hlinked.lt_of_mem_parentsOf hparent)

/-- The edges of a list of nodes are split. -/
theorem foldl_splitEdgesOf (h : Splitting g₀ state chains) (hlinked : Linked g₀)
    (hrouted : g₀.routed = true) {keys : List NodeKey} (hkeys : ∀ key ∈ keys, key ∈ g₀.keys)
    (hnodup : keys.Nodup) (hfresh : ∀ chain ∈ chains, chain.edge.dependent ∉ keys) :
    ∃ more, Splitting g₀ (keys.foldl Graph.splitEdgesOf state) (chains ++ more) ∧
      more.map Chain.edge = keys.flatMap g₀.longEdgesOf := by
  induction keys generalizing state chains with
  | nil => exact ⟨[], by rwa [List.append_nil], rfl⟩
  | cons key rest ih =>
      obtain ⟨hkey, hnodup⟩ := List.nodup_cons.1 hnodup
      obtain ⟨first, hfirst, hedges⟩ := h.splitEdgesOf hlinked hrouted
        (hkeys key List.mem_cons_self) fun chain hchain heq =>
          hfresh chain hchain (heq ▸ List.mem_cons_self)
      -- the chains added for one node are no chains of the nodes to come
      have hdependents : ∀ chain ∈ chains ++ first, chain.edge.dependent ∉ rest := by
        rw [List.forall_mem_append]
        refine ⟨fun chain hchain hmem =>
          hfresh chain hchain (List.mem_cons_of_mem key hmem), fun chain hchain => ?_⟩
        have hedge : chain.edge ∈ g₀.longEdgesOf key :=
          hedges ▸ List.mem_map_of_mem hchain
        rwa [dependent_of_mem_longEdgesOf hedge]
      obtain ⟨more, hmore, hmoreEdges⟩ := ih hfirst
        (fun other hother => hkeys other (List.mem_cons_of_mem key hother)) hnodup hdependents
      refine ⟨first ++ more, by rwa [← List.append_assoc], ?_⟩
      rw [List.map_append, hedges, hmoreEdges, List.flatMap_cons]

end Splitting

/-! ## The layers -/

/-- The nodes of the layers from the third up to below a bound. -/
def upperNodes (g : Graph α) (count : Nat) : List NodeKey :=
  (List.range' 2 count).flatMap fun layer => g.layers[layer]?.getD []

theorem mem_upperNodes_iff (h : Placed g) {count : Nat} {key : NodeKey} :
    key ∈ g.upperNodes count ↔ ∃ layer, 2 ≤ layer ∧ layer < 2 + count ∧ g.layerOf key = some layer := by
  simp only [upperNodes, List.mem_flatMap, List.mem_range'_1, h.mem_layer_iff, and_assoc]

theorem nodup_upperNodes (h : Placed g) (count : Nat) : (g.upperNodes count).Nodup := by
  refine List.nodup_flatMap.2 ⟨fun layer _ => h.nodup_layer layer, ?_⟩
  refine List.Pairwise.imp (fun {first second} hne key hfirst hsecond => ?_) List.nodup_range'
  have heq := (h.mem_layer_iff.1 hfirst).symm.trans (h.mem_layer_iff.1 hsecond)
  exact hne (Option.some.inj heq)

namespace Splitting

variable {state : Graph α × Nat} {chains : List Chain}

/-- The waypoints of a chain are lower than its dependent. -/
theorem layerOf_lt (h : Splitting g₀ state chains) {chain : Chain} (hchain : chain ∈ chains)
    {high : Nat} (hhigh : g₀.layerOf chain.edge.dependent = some high) {key : NodeKey}
    (hkey : key ∈ chain.waypoints) : ∃ layer < high, state.1.layerOf key = some layer := by
  have hmem : state.1.layerOf key ∈ chain.waypoints.map state.1.layerOf := List.mem_map_of_mem hkey
  rw [h.layerOf_waypoints chain hchain] at hmem
  obtain ⟨layer, hlayer, heq⟩ := List.mem_map.1 hmem
  exact ⟨layer, lt_of_mem_crossedLayers_of_layerOf hhigh hlayer, heq.symm⟩

/-- The edges of a layer are split.  The waypoints so far stand below it, so that it still lists what
it listed at the start. -/
theorem splitEdgesOfLayer (h : Splitting g₀ state chains) (hconsistent : Consistent g₀)
    (hrouted : g₀.routed = true) {layer : Nat}
    (hbelow : ∀ chain ∈ chains, ∃ high < layer, g₀.layerOf chain.edge.dependent = some high) :
    ∃ more, Splitting g₀ (splitEdgesOfLayer state layer) (chains ++ more) ∧
      more.map Chain.edge = (g₀.layers[layer]?.getD []).flatMap g₀.longEdgesOf := by
  have hsnapshot : state.1.layers[layer]? = g₀.layers[layer]? := by
    have hnone : (chains.flatMap Chain.waypoints).filter
        (fun key => state.1.layerOf key = some layer) = [] := by
      rw [List.filter_eq_nil_iff]
      intro key hkey
      obtain ⟨chain, hchain, hkey⟩ := List.mem_flatMap.1 hkey
      obtain ⟨high, hhigh, hplace⟩ := hbelow chain hchain
      obtain ⟨low, hlow, heq⟩ := h.layerOf_lt hchain hplace hkey
      rw [heq, decide_eq_true_eq, Option.some.injEq]
      omega
    rw [h.layers_eq, hnone]
    simp
  rw [Graph.splitEdgesOfLayer, hsnapshot]
  refine h.foldl_splitEdgesOf hconsistent.toLinked hrouted (fun key hkey => ?_)
    (hconsistent.nodup_layer layer) fun chain hchain hmem => ?_
  · exact (mem_keys g₀ key).2 (g₀.lt_of_layerOf (hconsistent.mem_layer_iff.1 hkey))
  · obtain ⟨high, hhigh, hplace⟩ := hbelow chain hchain
    rw [hconsistent.mem_layer_iff.1 hmem, Option.some.injEq] at hplace
    omega

/-- The edges from the third layer up to below a bound are split. -/
theorem foldl_splitEdgesOfLayer (h : Consistent g₀) (hrouted : g₀.routed = true) (count : Nat) :
    ∃ chains,
      Splitting g₀ ((List.range' 2 count).foldl Graph.splitEdgesOfLayer (g₀, 0)) chains ∧
      chains.map Chain.edge = (g₀.upperNodes count).flatMap g₀.longEdgesOf := by
  induction count with
  | zero => exact ⟨[], .start h, rfl⟩
  | succ count ih =>
      obtain ⟨chains, hchains, hedges⟩ := ih
      -- so far only dependents on lower layers have chains
      have hbelow : ∀ chain ∈ chains, ∃ high < 2 + count,
          g₀.layerOf chain.edge.dependent = some high := by
        intro chain hchain
        have hedge : chain.edge ∈ (g₀.upperNodes count).flatMap g₀.longEdgesOf :=
          hedges ▸ List.mem_map_of_mem hchain
        obtain ⟨key, hkey, hedge⟩ := List.mem_flatMap.1 hedge
        obtain ⟨layer, -, hlt, hlayer⟩ := (mem_upperNodes_iff h.toPlaced).1 hkey
        exact ⟨layer, hlt, by rwa [dependent_of_mem_longEdgesOf hedge]⟩
      obtain ⟨more, hmore, hmoreEdges⟩ := hchains.splitEdgesOfLayer h hrouted hbelow
      refine ⟨chains ++ more, ?_, ?_⟩
      · rw [List.range'_1_concat, List.foldl_append]
        exact hmore
      · have hupper : g₀.upperNodes (count + 1) =
            g₀.upperNodes count ++ g₀.layers[2 + count]?.getD [] := by
          rw [upperNodes, List.range'_1_concat, List.flatMap_append, List.flatMap_singleton]
          rfl
        rw [List.map_append, hedges, hmoreEdges, hupper, List.flatMap_append]

end Splitting

end JobGraph.Graph
