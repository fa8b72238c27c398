import JobGraph.Graph.Routing
import JobGraph.Proofs.Graph.Consistency

/-!
# Graphs that grow by waypoints

Routing adds waypoints and rearranges edges.  `Grown` says what it does besides: the nodes there
were keep everything but their edges, and every waypoint stands at the end of the list of its layer,
in the order of creation.  The relation does not mention edges, so that it composes over any
sequence of additions and removals; what happens to the edges is told by permutations of `edges`.
-/

namespace JobGraph.Graph

variable {α : Type} {g g' g'' : Graph α}

/-! ## Edges as a multiset -/

private theorem sum_range_ite (u n c : Nat) :
    ((List.range n).map fun key => if key = u then c else 0).sum = if u < n then c else 0 := by
  induction n with
  | zero => rfl
  | succ n ih =>
      rw [List.range_succ, List.map_append, List.sum_append, ih]
      rcases Nat.lt_trichotomy u n with h | rfl | h
      · simp [h, Nat.ne_of_gt h, Nat.lt_succ_of_lt h]
      · simp
      · simp [Nat.not_lt_of_gt h, Nat.ne_of_lt h, Nat.not_lt.2 h]

theorem count_edges (g : Graph α) (u v : NodeKey) :
    g.edges.count ⟨u, v⟩ = (g.parentsOf u).count v := by
  have hcount : ∀ key, ((g.parentsOf key).map fun parent => Edge.mk key parent).count ⟨u, v⟩ =
      if key = u then (g.parentsOf u).count v else 0 := by
    intro key
    by_cases hkey : key = u
    · rw [if_pos hkey, hkey]
      exact List.count_map_of_injective _ (Edge.mk u) (fun _ _ h => (Edge.mk.inj h).2) v
    · rw [if_neg hkey, List.count_eq_zero]
      rintro hmem
      obtain ⟨parent, -, heq⟩ := List.mem_map.1 hmem
      exact hkey (Edge.mk.inj heq).1
  rw [edges, List.count_flatMap, keys]
  simp only [Function.comp_def, hcount]
  rw [sum_range_ite]
  split
  · rfl
  · rename_i hu
    symm
    rw [List.count_eq_zero]
    exact fun hmem => hu (g.lt_of_mem_parentsOf hmem)

/-- Every parent of a node is an edge that leaves it. -/
theorem count_map_dependent_edges (g : Graph α) (key : NodeKey) :
    (g.edges.map Edge.dependent).count key = (g.parentsOf key).length := by
  have hcount : ∀ other, (((g.parentsOf other).map (Edge.mk other)).map Edge.dependent).count key =
      if other = key then (g.parentsOf key).length else 0 := by
    intro other
    rw [List.map_map]
    show ((g.parentsOf other).map fun _ => other).count key = _
    rw [List.map_const', List.count_replicate]
    split <;> simp_all
  rw [edges, List.map_flatMap, List.count_flatMap, keys]
  simp only [Function.comp_def, hcount]
  rw [sum_range_ite]
  split
  · rfl
  · rename_i hkey
    rw [parentsOf, (g.node?_eq_none_iff key).2 (not_lt.1 hkey)]
    rfl

private theorem sum_range_count {n : Nat} {list : List Nat} (h : ∀ key ∈ list, key < n) :
    ((List.range n).map fun key => list.count key).sum = list.length := by
  induction list with
  | nil => simp
  | cons first rest ih =>
      obtain ⟨hfirst, hrest⟩ := List.forall_mem_cons.1 h
      have hcount : ∀ key, (first :: rest).count key =
          rest.count key + if key = first then 1 else 0 := by
        intro key
        by_cases hkey : key = first
        · simp [hkey]
        · simp [hkey, Ne.symm hkey]
      simp only [hcount]
      rw [List.sum_map_add, ih hrest, sum_range_ite, if_pos hfirst, List.length_cons]

/-- Every child of a node is an edge that arrives at it. -/
theorem Linked.count_map_parent_edges (h : Linked g) (key : NodeKey) :
    (g.edges.map Edge.parent).count key = (g.childrenOf key).length := by
  have hcount : ∀ other, (((g.parentsOf other).map (Edge.mk other)).map Edge.parent).count key =
      (g.childrenOf key).count other := by
    intro other
    rw [List.map_map, ← h.count_parentsOf]
    exact congrArg (List.count key) (List.map_id _)
  rw [edges, List.map_flatMap, List.count_flatMap, keys]
  simp only [Function.comp_def, hcount]
  exact sum_range_count fun child hchild => g.lt_of_mem_parentsOf (h.mem_childrenOf_iff.1 hchild)

/-- Two lists of edges with the same counts are the same up to order. -/
theorem perm_of_count_edge {first second : List Edge}
    (h : ∀ u v, first.count ⟨u, v⟩ = second.count ⟨u, v⟩) : first.Perm second :=
  List.perm_iff_count.2 fun edge => h edge.dependent edge.parent

theorem mem_edges_iff {edge : Edge} : edge ∈ g.edges ↔ edge.parent ∈ g.parentsOf edge.dependent := by
  rw [← List.count_pos_iff, ← List.count_pos_iff]
  exact iff_of_eq (congrArg (0 < ·) (g.count_edges edge.dependent edge.parent))

theorem Linked.mem_keys_of_mem_edges (h : Linked g) {edge : Edge} (hedge : edge ∈ g.edges) :
    edge.dependent ∈ g.keys ∧ edge.parent ∈ g.keys := by
  have hparent := mem_edges_iff.1 hedge
  rw [mem_keys, mem_keys]
  exact ⟨g.lt_of_mem_parentsOf hparent, h.lt_of_mem_parentsOf hparent⟩

theorem edges_perm_of_parentsOf_eq (h : g'.parentsOf = g.parentsOf) : g'.edges.Perm g.edges :=
  perm_of_count_edge fun u v => by rw [count_edges, count_edges, h]

private theorem count_cons_edge (u v dependent parent : NodeKey) (edges : List Edge) :
    ((⟨dependent, parent⟩ : Edge) :: edges).count ⟨u, v⟩ =
      edges.count ⟨u, v⟩ + if dependent = u ∧ parent = v then 1 else 0 := by
  rw [List.count_cons]
  simp only [beq_iff_eq, Edge.mk.injEq]

theorem edges_addEdge_perm {dependent parent : NodeKey} (hdependent : dependent < g.nodes.size)
    (hparent : parent < g.nodes.size) :
    (g.addEdge dependent parent).edges.Perm (⟨dependent, parent⟩ :: g.edges) := by
  refine perm_of_count_edge fun u v => ?_
  rw [count_cons_edge, count_edges, count_edges, parentsOf_addEdge g hdependent hparent]
  by_cases hu : u = dependent
  · simp [hu, List.count_append, List.count_singleton]
  · simp [hu, Ne.symm hu]

theorem edges_removeEdge_perm {dependent parent : NodeKey}
    (hedge : parent ∈ g.parentsOf dependent) :
    g.edges.Perm (⟨dependent, parent⟩ :: (g.removeEdge dependent parent).edges) := by
  refine perm_of_count_edge fun u v => ?_
  rw [count_cons_edge, count_edges, count_edges, parentsOf_removeEdge]
  have hpos := List.count_pos_iff.2 hedge
  by_cases hu : u = dependent
  · by_cases hv : v = parent
    · subst hu hv
      rw [if_pos rfl, if_pos ⟨rfl, rfl⟩, List.count_erase_self]
      omega
    · simp [hu, Ne.symm hv, List.count_erase_of_ne hv]
  · simp [hu, Ne.symm hu]

/-! ## Growth -/

/-- `g'` is `g` with more waypoints and other edges: the nodes there were keep everything but their
edges, and the waypoints follow them in the lists of their layers. -/
structure Grown (g g' : Graph α) (added : List NodeKey) : Prop where
  keys_eq : g'.keys = g.keys ++ added
  bareNode?_eq : ∀ key ∈ g.keys, g'.bareNode? key = g.bareNode? key
  realKeys_eq : g'.realKeys = g.realKeys
  waypointKeys_eq : g'.waypointKeys = g.waypointKeys ++ added
  routed_eq : g'.routed = g.routed
  ranking_eq : g'.ranking = g.ranking
  layers_eq : ∀ layer : Nat, g'.layers[layer]? = g.layers[layer]?.map fun keys =>
    keys ++ added.filter fun key => g'.layerOf key = some layer

namespace Grown

variable {added more : List NodeKey}

theorem refl (g : Graph α) : Grown g g [] where
  keys_eq := (List.append_nil _).symm
  bareNode?_eq _ _ := rfl
  realKeys_eq := rfl
  waypointKeys_eq := (List.append_nil _).symm
  routed_eq := rfl
  ranking_eq := rfl
  layers_eq _ := by simp

theorem mem_keys_of_mem (h : Grown g g' added) {key : NodeKey} (hkey : key ∈ g.keys) :
    key ∈ g'.keys := by
  rw [h.keys_eq]
  exact List.mem_append_left added hkey

theorem mem_keys_of_added (h : Grown g g' added) {key : NodeKey} (hkey : key ∈ added) :
    key ∈ g'.keys := by
  rw [h.keys_eq]
  exact List.mem_append_right g.keys hkey

theorem size_le (h : Grown g g' added) : g.nodes.size ≤ g'.nodes.size := by
  have := congrArg List.length h.keys_eq
  simp only [keys, List.length_append, List.length_range] at this
  omega

theorem layerOf_eq (h : Grown g g' added) {key : NodeKey} (hkey : key ∈ g.keys) :
    g'.layerOf key = g.layerOf key :=
  layerOf_of_bareNode?_eq (h.bareNode?_eq key hkey)

theorem rankOf_eq (h : Grown g g' added) {key : NodeKey} (hkey : key ∈ g.keys) :
    g'.rankOf key = g.rankOf key :=
  rankOf_of_bareNode?_eq (h.bareNode?_eq key hkey)

theorem ends?_eq (h : Grown g g' added) {key : NodeKey} (hkey : key ∈ g.keys) :
    (g'.node? key).bind Node.ends? = (g.node? key).bind Node.ends? :=
  ends?_of_bareNode?_eq (h.bareNode?_eq key hkey)

theorem length_layers (h : Grown g g' added) : g'.layers.length = g.layers.length := by
  have hnone : ∀ layer, g'.layers.length ≤ layer ↔ g.layers.length ≤ layer := by
    intro layer
    rw [← List.getElem?_eq_none_iff, h.layers_eq, Option.map_eq_none_iff,
      List.getElem?_eq_none_iff]
  exact le_antisymm ((hnone _).2 le_rfl) ((hnone _).1 le_rfl)

/-- Added waypoints are no nodes there were. -/
theorem not_mem_keys_of_added (h : Grown g g' added) {key : NodeKey} (hkey : key ∈ added) :
    key ∉ g.keys := by
  have hnodup : (g.keys ++ added).Nodup := h.keys_eq ▸ g'.nodup_keys
  exact fun hold => List.disjoint_of_nodup_append hnodup hold hkey

theorem nodup_added (h : Grown g g' added) : added.Nodup := by
  have hnodup : (g.keys ++ added).Nodup := h.keys_eq ▸ g'.nodup_keys
  exact (List.nodup_append.1 hnodup).2.1

theorem trans (h : Grown g g' added) (h' : Grown g' g'' more) : Grown g g'' (added ++ more) where
  keys_eq := by rw [h'.keys_eq, h.keys_eq, List.append_assoc]
  bareNode?_eq key hkey :=
    (h'.bareNode?_eq key (h.mem_keys_of_mem hkey)).trans (h.bareNode?_eq key hkey)
  realKeys_eq := h'.realKeys_eq.trans h.realKeys_eq
  waypointKeys_eq := by rw [h'.waypointKeys_eq, h.waypointKeys_eq, List.append_assoc]
  routed_eq := h'.routed_eq.trans h.routed_eq
  ranking_eq := h'.ranking_eq.trans h.ranking_eq
  layers_eq layer := by
    -- the waypoints added first stay where they are
    have hkept : added.filter (fun key => g''.layerOf key = some layer) =
        added.filter fun key => g'.layerOf key = some layer := by
      refine List.filter_congr fun key hkey => ?_
      rw [h'.layerOf_eq (h.mem_keys_of_added hkey)]
    rw [h'.layers_eq, h.layers_eq, Option.map_map, List.filter_append, hkept]
    refine congrArg (fun change => g.layers[layer]?.map change) (funext fun keys => ?_)
    exact List.append_assoc _ _ _

end Grown

private theorem grown_of_edges (hsize : g'.nodes.size = g.nodes.size)
    (hbare : ∀ key, g'.bareNode? key = g.bareNode? key)
    (hfields : g'.realKeys = g.realKeys ∧ g'.waypointKeys = g.waypointKeys ∧
      g'.routed = g.routed ∧ g'.ranking = g.ranking ∧ g'.layers = g.layers) : Grown g g' [] := by
  obtain ⟨hreal, hwaypoints, hrouted, hranking, hlayers⟩ := hfields
  refine ⟨?_, fun key _ => hbare key, hreal, ?_, hrouted, hranking, fun layer => ?_⟩
  · rw [keys, keys, hsize, List.append_nil]
  · rw [hwaypoints, List.append_nil]
  · simp [hlayers]

theorem grown_addEdge (g : Graph α) (dependent parent : NodeKey) :
    Grown g (g.addEdge dependent parent) [] :=
  grown_of_edges (by simp) (bareNode?_addEdge g dependent parent) (fields_addEdge g dependent parent)

theorem grown_removeEdge (g : Graph α) (dependent parent : NodeKey) :
    Grown g (g.removeEdge dependent parent) [] :=
  grown_of_edges (by simp) (bareNode?_removeEdge g dependent parent)
    (fields_removeEdge g dependent parent)

/-! ## One more waypoint -/

/-- The graph with a new waypoint at the end of a layer. -/
def withWaypoint (g : Graph α) (id : String) (source target : NodeKey) (layer : Nat) : Graph α :=
  { (g.addWaypoint id source target).modifyNode g.nodes.size
      fun node => { node with layer := some layer } with
    layers := g.layers.modify layer fun keys => keys ++ [g.nodes.size] }

section WithWaypoint

variable (g) (id : String) (source target : NodeKey) (layer : Nat)

theorem node?_withWaypoint (key : NodeKey) :
    (g.withWaypoint id source target layer).node? key =
      if key = g.nodes.size then
        some { Node.new id (.waypoint source target) g.waypointKeys.length with
          layer := some layer }
      else g.node? key := by
  refine (node?_modifyNode (g.addWaypoint id source target) g.nodes.size key _).trans ?_
  rw [node?_addWaypoint]
  by_cases hkey : key = g.nodes.size
  · simp [hkey]
  · simp [hkey, Ne.symm hkey]

theorem nodes_size_withWaypoint :
    (g.withWaypoint id source target layer).nodes.size = g.nodes.size + 1 := by
  simp [withWaypoint, addWaypoint, modifyNode]

theorem parentsOf_withWaypoint :
    (g.withWaypoint id source target layer).parentsOf = g.parentsOf := by
  funext key
  rw [parentsOf, parentsOf, node?_withWaypoint]
  split
  · rename_i hkey
    rw [(g.node?_eq_none_iff key).2 hkey.ge]
    rfl
  · rfl

theorem childrenOf_withWaypoint :
    (g.withWaypoint id source target layer).childrenOf = g.childrenOf := by
  funext key
  rw [childrenOf, childrenOf, node?_withWaypoint]
  split
  · rename_i hkey
    rw [(g.node?_eq_none_iff key).2 hkey.ge]
    rfl
  · rfl

theorem layerOf_withWaypoint (key : NodeKey) :
    (g.withWaypoint id source target layer).layerOf key =
      if key = g.nodes.size then some layer else g.layerOf key := by
  rw [layerOf, node?_withWaypoint]
  split <;> rfl

theorem rankOf_withWaypoint : (g.withWaypoint id source target layer).rankOf = g.rankOf := by
  funext key
  rw [rankOf, rankOf, node?_withWaypoint]
  split
  · rename_i hkey
    rw [(g.node?_eq_none_iff key).2 hkey.ge]
    rfl
  · rfl

theorem getElem?_layers_withWaypoint (other : Nat) :
    (g.withWaypoint id source target layer).layers[other]? =
      g.layers[other]?.map fun keys => keys ++ if layer = other then [g.nodes.size] else [] := by
  refine (List.getElem?_modify _ _ _ _).trans ?_
  rw [Option.map_eq_map]
  refine congrArg (fun change => g.layers[other]?.map change) (funext fun keys => ?_)
  split <;> simp

theorem grown_withWaypoint :
    Grown g (g.withWaypoint id source target layer) [g.nodes.size] where
  keys_eq := by rw [keys, nodes_size_withWaypoint, List.range_succ, keys]
  bareNode?_eq key hkey := by
    rw [bareNode?, node?_withWaypoint, if_neg (Nat.ne_of_lt ((mem_keys g key).1 hkey)), bareNode?]
  realKeys_eq := rfl
  waypointKeys_eq := rfl
  routed_eq := rfl
  ranking_eq := rfl
  layers_eq other := by
    rw [getElem?_layers_withWaypoint]
    by_cases hother : layer = other <;> simp [layerOf_withWaypoint, hother]

end WithWaypoint

theorem Consistent.withWaypoint (h : Consistent g) (hrouted : g.routed = true) (id : String)
    (source target : NodeKey) {layer : Nat} (hlayer : layer < g.layers.length) :
    Consistent (g.withWaypoint id source target layer) := by
  have hadded := h.addWaypoint hrouted id source target
  have hreads := g.reads_addWaypoint id source target
  refine ⟨hadded.toLinked.congr ?_ ?_ ?_ ?_ rfl rfl rfl, ?_, ?_, ?_⟩
  · rw [nodes_size_withWaypoint]
    simp [Graph.addWaypoint]
  · rw [parentsOf_withWaypoint, hreads.1]
  · rw [childrenOf_withWaypoint, hreads.2.1]
  · funext key
    rw [isWaypoint, node?_withWaypoint, isWaypoint, node?_addWaypoint]
    split <;> rfl
  · rw [rankOf_withWaypoint]
    exact h.rankOf_iff
  · intro key other
    rw [layerOf_withWaypoint, getElem?_layers_withWaypoint]
    -- the lists of layers name nodes that there were, hence not the new one
    have hnew : ∀ keys, g.layers[other]? = some keys → g.nodes.size ∉ keys := by
      intro keys hkeys hmem
      exact absurd (g.lt_of_layerOf ((h.layerOf_iff _ _).2 ⟨keys, hkeys, hmem⟩)) (lt_irrefl _)
    split
    · rename_i hkey
      rw [hkey, Option.some.injEq]
      constructor
      · rintro rfl
        exact ⟨_, by rw [List.getElem?_eq_getElem hlayer, Option.map_some], by simp⟩
      · rintro ⟨_, hkeys, hmem⟩
        obtain ⟨keys, hold, rfl⟩ := Option.map_eq_some_iff.1 hkeys
        by_contra hne
        exact hnew keys hold (by simpa [hne] using hmem)
    · rename_i hkey
      rw [h.layerOf_iff]
      constructor
      · rintro ⟨keys, hkeys, hmem⟩
        exact ⟨_, by rw [hkeys, Option.map_some], List.mem_append_left _ hmem⟩
      · rintro ⟨_, hkeys, hmem⟩
        obtain ⟨keys, hold, rfl⟩ := Option.map_eq_some_iff.1 hkeys
        refine ⟨keys, hold, ?_⟩
        rcases List.mem_append.1 hmem with hmem | hmem
        · exact hmem
        · split at hmem
          · exact absurd (List.mem_singleton.1 hmem) hkey
          · exact absurd hmem List.not_mem_nil
  · intro keys hkeys
    obtain ⟨other, hother⟩ := List.mem_iff_getElem?.1 hkeys
    rw [getElem?_layers_withWaypoint] at hother
    obtain ⟨old, hold, rfl⟩ := Option.map_eq_some_iff.1 hother
    have hnodup := h.nodup_layers old (List.mem_of_getElem? hold)
    split
    · refine List.nodup_append.2 ⟨hnodup, List.nodup_singleton _, ?_⟩
      rintro key hkey _ hnew rfl
      have hlt := g.lt_of_layerOf ((h.layerOf_iff _ _).2 ⟨old, hold, hkey⟩)
      exact absurd (List.mem_singleton.1 hnew) (Nat.ne_of_lt hlt)
    · rwa [List.append_nil]

/-! ## Routing step by step -/

/-- A routing splits one edge after the other, so it keeps what a split keeps. -/
theorem routeLongEdges_of_splitEdge {P : Graph α → Prop}
    (hmark : ∀ g : Graph α, P g → P { g with routed := true })
    (hsplit : ∀ (g : Graph α) (count : Nat) (dependent parent : NodeKey), P g →
      P (splitEdge dependent (g, count) parent).1)
    (h : P g) : P g.routeLongEdges.1 := by
  have hnode : ∀ (state : Graph α × Nat) (dependent : NodeKey), P state.1 →
      P (splitEdgesOf state dependent).1 := by
    intro state dependent hstate
    exact List.foldlRecOn (motive := fun next : Graph α × Nat => P next.1) _ _ hstate
      fun next hnext parent _ => hsplit next.1 next.2 dependent parent hnext
  have hlayer : ∀ (state : Graph α × Nat) (layer : Nat), P state.1 →
      P (splitEdgesOfLayer state layer).1 := by
    intro state layer hstate
    exact List.foldlRecOn (motive := fun next : Graph α × Nat => P next.1) _ _ hstate
      fun next hnext dependent _ => hnode next dependent hnext
  unfold routeLongEdges
  split
  · exact h
  · split
    · exact h
    · exact List.foldlRecOn (motive := fun next : Graph α × Nat => P next.1) _ _ (hmark g h)
        fun next hnext layer _ => hlayer next layer hnext

/-- A split removes and adds edges and adds waypoints, each named for the edge and its layer, so a
routing keeps what these keep. -/
theorem routeLongEdges_induction_named {P : Graph α → Prop}
    (hmark : ∀ g : Graph α, P g → P { g with routed := true })
    (hadd : ∀ (g : Graph α) (dependent parent : NodeKey), P g → P (g.addEdge dependent parent))
    (hremove : ∀ (g : Graph α) (dependent parent : NodeKey), P g →
      P (g.removeEdge dependent parent))
    (hwaypoint : ∀ (g : Graph α) (source target : NodeKey) (layer : Nat), P g →
      P (g.withWaypoint (g.freeId (waypointId (g.idOf source) (g.idOf target) layer)) source target
        layer))
    (h : P g) : P g.routeLongEdges.1 := by
  refine routeLongEdges_of_splitEdge hmark (fun g count dependent parent hg => ?_) h
  simp only [splitEdge]
  split
  · exact hg
  · refine hadd _ _ parent ?_
    exact List.foldlRecOn (motive := fun state : Graph α × NodeKey => P state.1) _ _
      (hremove g dependent parent hg)
      fun state hstate layer _ => hadd _ state.2 _ (hwaypoint state.1 dependent parent layer hstate)

/-- What the waypoints are named for does not matter if every waypoint with a free id is kept. -/
theorem routeLongEdges_induction {P : Graph α → Prop}
    (hmark : ∀ g : Graph α, P g → P { g with routed := true })
    (hadd : ∀ (g : Graph α) (dependent parent : NodeKey), P g → P (g.addEdge dependent parent))
    (hremove : ∀ (g : Graph α) (dependent parent : NodeKey), P g →
      P (g.removeEdge dependent parent))
    (hwaypoint : ∀ (g : Graph α) (base : String) (source target : NodeKey) (layer : Nat), P g →
      P (g.withWaypoint (g.freeId base) source target layer))
    (h : P g) : P g.routeLongEdges.1 :=
  routeLongEdges_induction_named hmark hadd hremove
    (fun g source target layer hg => hwaypoint g _ source target layer hg) h

theorem sorted_addEdge (g : Graph α) (dependent parent : NodeKey) :
    (g.addEdge dependent parent).sorted = g.sorted := by
  unfold addEdge
  split <;> rfl

theorem sorted_removeEdge (g : Graph α) (dependent parent : NodeKey) :
    (g.removeEdge dependent parent).sorted = g.sorted := by
  unfold removeEdge
  split <;> rfl

/-- A routing leaves the mark that the graph is sorted. -/
theorem sorted_routeLongEdges (g : Graph α) : g.routeLongEdges.1.sorted = g.sorted := by
  refine routeLongEdges_induction (P := fun next => next.sorted = g.sorted) ?_ ?_ ?_ ?_ rfl
  · exact fun _ hnext => hnext
  · exact fun next dependent parent hnext => (next.sorted_addEdge dependent parent).trans hnext
  · exact fun next dependent parent hnext => (next.sorted_removeEdge dependent parent).trans hnext
  · exact fun _ _ _ _ _ hnext => hnext

end JobGraph.Graph
