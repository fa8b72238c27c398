import JobGraph.Proofs.Graph.Reading

/-!
# Consistent graphs

What every operation preserves, in two parts.

* `Linked`: every edge is kept at both ends, equally often, and the lists of real nodes and of
  waypoints part the keys in the order of creation.  It does not mention the layout, so it carries
  over to every graph with the same `clearLayout`.
* `Placed`: ranks and layers of the nodes are those told by the ranking and by the lists of layers.
  It mentions the layout only, so that it survives every change of edges.

The preservation lemmas for nodes and edges stand here, those for layouts with the operations that
compute them.
-/

namespace JobGraph.Graph

variable {α : Type}

/-- Edges and lists of keys agree with each other. -/
structure Linked (g : Graph α) : Prop where
  /-- Between two nodes, the dependent has as many edges to the parent as the parent has from it. -/
  count_parentsOf : ∀ dependent parent,
    (g.parentsOf dependent).count parent = (g.childrenOf parent).count dependent
  realKeys_eq : g.realKeys = g.keys.filter fun key => !g.isWaypoint key
  waypointKeys_eq : g.waypointKeys = g.keys.filter fun key => g.isWaypoint key
  waypointKeys_of_unrouted : g.routed = false → g.waypointKeys = []

/-- The places of the nodes agree with the ranking and the lists of layers. -/
structure Placed (g : Graph α) : Prop where
  rankOf_iff : ∀ key rank, g.rankOf key = some rank ↔ g.ranking[rank]? = some key
  layerOf_iff : ∀ key layer,
    g.layerOf key = some layer ↔ ∃ keys, g.layers[layer]? = some keys ∧ key ∈ keys
  nodup_layers : ∀ keys ∈ g.layers, keys.Nodup

/-- A graph whose parts agree with each other. -/
structure Consistent (g : Graph α) : Prop extends Linked g, Placed g

/-! ## Balance -/

/-- The dependent of two nodes keeps as many edges between them as the parent does. -/
def Balanced (g : Graph α) : Prop :=
  ∀ dependent parent, (g.parentsOf dependent).count parent = (g.childrenOf parent).count dependent

namespace Balanced

variable {g : Graph α}

theorem mem_childrenOf_iff (h : Balanced g) {child parent : NodeKey} :
    child ∈ g.childrenOf parent ↔ parent ∈ g.parentsOf child := by
  rw [← List.count_pos_iff, ← h, List.count_pos_iff]

theorem addEdge (h : Balanced g) (dependent parent : NodeKey) :
    Balanced (g.addEdge dependent parent) := by
  by_cases hends : dependent < g.nodes.size ∧ parent < g.nodes.size
  · intro u v
    have := h u v
    rw [parentsOf_addEdge g hends.1 hends.2, childrenOf_addEdge g hends.1 hends.2]
    by_cases hu : u = dependent <;> by_cases hv : v = parent <;>
      simp [hu, hv, List.count_append, List.count_singleton] <;> grind
  · rwa [g.addEdge_of_not_lt hends]

theorem removeEdge (h : Balanced g) (dependent parent : NodeKey) :
    Balanced (g.removeEdge dependent parent) := by
  by_cases hedge : parent ∈ g.parentsOf dependent
  · intro u v
    have := h u v
    rw [parentsOf_removeEdge, childrenOf_removeEdge g hedge]
    by_cases hu : u = dependent <;> by_cases hv : v = parent <;>
      simp [hu, hv] <;> grind
  · rwa [g.removeEdge_of_not_mem hedge]

end Balanced

/-! ## Consequences -/

namespace Linked

variable {g g' : Graph α}

theorem mem_childrenOf_iff (h : Linked g) {child parent : NodeKey} :
    child ∈ g.childrenOf parent ↔ parent ∈ g.parentsOf child :=
  Balanced.mem_childrenOf_iff h.count_parentsOf

theorem lt_of_mem_parentsOf (h : Linked g) {key parent : NodeKey}
    (hparent : parent ∈ g.parentsOf key) : parent < g.nodes.size :=
  g.lt_of_mem_childrenOf (h.mem_childrenOf_iff.2 hparent)

theorem lt_of_mem_childrenOf (h : Linked g) {key child : NodeKey}
    (hchild : child ∈ g.childrenOf key) : child < g.nodes.size :=
  g.lt_of_mem_parentsOf (h.mem_childrenOf_iff.1 hchild)

theorem lt_of_mem_realKeys (h : Linked g) {key : NodeKey} (hkey : key ∈ g.realKeys) :
    key < g.nodes.size := by
  rw [h.realKeys_eq] at hkey
  exact (mem_keys g key).1 (List.mem_filter.1 hkey).1

theorem mem_realKeys_iff (h : Linked g) (hunrouted : g.routed = false) {key : NodeKey} :
    key ∈ g.realKeys ↔ key < g.nodes.size := by
  have hnone : g.keys.filter (fun key => g.isWaypoint key) = [] := by
    rw [← h.waypointKeys_eq, h.waypointKeys_of_unrouted hunrouted]
  rw [h.realKeys_eq, List.mem_filter, mem_keys]
  refine ⟨And.left, fun hkey => ⟨hkey, ?_⟩⟩
  simpa using List.filter_eq_nil_iff.1 hnone key ((mem_keys g key).2 hkey)

/-- Whoever has a payload is real. -/
theorem mem_realKeys_of_data? (h : Linked g) {key : NodeKey} {data : α}
    (hdata : g.data? key = some data) : key ∈ g.realKeys := by
  obtain ⟨node, hnode, hdata⟩ := Option.bind_eq_some_iff.1 hdata
  rw [h.realKeys_eq, List.mem_filter, mem_keys]
  constructor
  · exact (Array.getElem?_eq_some_iff.1 hnode).1
  · cases hkind : node.kind with
    | real data => simp [isWaypoint, hnode, Node.isWaypoint, Node.ends?, hkind]
    | waypoint source target => simp [Node.data?, hkind] at hdata

/-- In a graph that was not routed all nodes are real. -/
theorem realKeys_eq_keys (h : Linked g) (hunrouted : g.routed = false) : g.realKeys = g.keys := by
  rw [h.realKeys_eq, List.filter_eq_self]
  intro key hkey
  have := (h.mem_realKeys_iff hunrouted).2 ((mem_keys g key).1 hkey)
  rw [h.realKeys_eq] at this
  exact (List.mem_filter.1 this).2

/-- Only what a reader sees matters. -/
theorem congr (h : Linked g) (hsize : g'.nodes.size = g.nodes.size)
    (hparents : g'.parentsOf = g.parentsOf) (hchildren : g'.childrenOf = g.childrenOf)
    (hkind : g'.isWaypoint = g.isWaypoint) (hreal : g'.realKeys = g.realKeys)
    (hwaypoints : g'.waypointKeys = g.waypointKeys) (hrouted : g'.routed = g.routed) :
    Linked g' where
  count_parentsOf dependent parent := by
    rw [hparents, hchildren]
    exact h.count_parentsOf dependent parent
  realKeys_eq := by
    rw [hreal, keys, hsize, hkind]
    exact h.realKeys_eq
  waypointKeys_eq := by
    rw [hwaypoints, keys, hsize, hkind]
    exact h.waypointKeys_eq
  waypointKeys_of_unrouted hunrouted := by
    rw [hwaypoints]
    exact h.waypointKeys_of_unrouted (hrouted ▸ hunrouted)

theorem of_clearLayout_eq (h : Linked g) (heq : g'.clearLayout = g.clearLayout) : Linked g' :=
  h.congr (size_of_clearLayout_eq heq) (parentsOf_of_clearLayout_eq heq)
    (childrenOf_of_clearLayout_eq heq) (isWaypoint_of_clearLayout_eq heq)
    (show g'.clearLayout.realKeys = g.clearLayout.realKeys by rw [heq])
    (show g'.clearLayout.waypointKeys = g.clearLayout.waypointKeys by rw [heq])
    (show g'.clearLayout.routed = g.clearLayout.routed by rw [heq])

end Linked

namespace Placed

variable {g g' : Graph α}

theorem congr (h : Placed g) (hrank : g'.rankOf = g.rankOf) (hlayer : g'.layerOf = g.layerOf)
    (hranking : g'.ranking = g.ranking) (hlayers : g'.layers = g.layers) : Placed g' where
  rankOf_iff key rank := by
    rw [hrank, hranking]
    exact h.rankOf_iff key rank
  layerOf_iff key layer := by
    rw [hlayer, hlayers]
    exact h.layerOf_iff key layer
  nodup_layers := by
    rw [hlayers]
    exact h.nodup_layers

theorem mem_layer_iff (h : Placed g) {layer : Nat} {key : NodeKey} :
    key ∈ g.layers[layer]?.getD [] ↔ g.layerOf key = some layer := by
  rw [h.layerOf_iff]
  cases g.layers[layer]? <;> simp

theorem nodup_layer (h : Placed g) (layer : Nat) : (g.layers[layer]?.getD []).Nodup := by
  cases hkeys : g.layers[layer]? with
  | none => exact List.nodup_nil
  | some keys => exact h.nodup_layers keys (List.mem_of_getElem? hkeys)

theorem lt_length_of_layerOf (h : Placed g) {key : NodeKey} {layer : Nat}
    (hlayer : g.layerOf key = some layer) : layer < g.layers.length := by
  obtain ⟨keys, hkeys, -⟩ := (h.layerOf_iff key layer).1 hlayer
  exact (List.getElem?_eq_some_iff.1 hkeys).1

end Placed

/-- Ranks are given to nodes, and as long as a graph is not routed these are real. -/
theorem Consistent.ranking_subset_realKeys {g : Graph α} (h : Consistent g)
    (hunrouted : g.routed = false) : g.ranking ⊆ g.realKeys := by
  intro key hkey
  obtain ⟨rank, hrank⟩ := List.mem_iff_getElem?.1 hkey
  have hsome := (h.rankOf_iff key rank).2 hrank
  rw [h.toLinked.mem_realKeys_iff hunrouted]
  by_contra hmissing
  rw [rankOf, (g.node?_eq_none_iff key).2 (Nat.not_lt.1 hmissing)] at hsome
  exact absurd hsome.symm (Option.some_ne_none rank)

/-! ## Nodes -/

theorem consistent_empty : Consistent (empty : Graph α) where
  count_parentsOf _ _ := rfl
  realKeys_eq := rfl
  waypointKeys_eq := rfl
  waypointKeys_of_unrouted _ := rfl
  rankOf_iff _ _ := by simp [empty, rankOf, node?]
  layerOf_iff _ _ := by simp [empty, layerOf, node?]
  nodup_layers _ h := by simp [empty] at h

namespace Consistent

variable {g : Graph α}

theorem addNode (h : Consistent g) (id : String) (data : α) : Consistent (g.addNode id data) := by
  obtain ⟨hparents, hchildren, hrank, hlayer⟩ := g.reads_addNode id data
  -- the new key comes last in the list of keys and names no waypoint
  have hnew : g.isWaypoint g.nodes.size = false := isWaypoint_of_le g le_rfl
  refine ⟨⟨?_, ?_, ?_, h.waypointKeys_of_unrouted⟩, h.toPlaced.congr hrank hlayer rfl rfl⟩
  · rw [hparents, hchildren]
    exact h.count_parentsOf
  · rw [isWaypoint_addNode, keys_addNode, List.filter_append, ← h.realKeys_eq]
    simp [Graph.addNode, nextKey, hnew]
  · rw [isWaypoint_addNode, keys_addNode, List.filter_append, ← h.waypointKeys_eq]
    simp [Graph.addNode, hnew]

/-- Waypoints come into routed graphs only. -/
theorem addWaypoint (h : Consistent g) (hrouted : g.routed = true) (id : String)
    (source target : NodeKey) : Consistent (g.addWaypoint id source target) := by
  obtain ⟨hparents, hchildren, hrank, hlayer⟩ := g.reads_addWaypoint id source target
  have hold : ∀ key ∈ g.keys,
      (g.addWaypoint id source target).isWaypoint key = g.isWaypoint key := by
    intro key hkey
    rw [isWaypoint_addWaypoint]
    simp [Nat.ne_of_lt ((mem_keys g key).1 hkey)]
  have hnew : (g.addWaypoint id source target).isWaypoint g.nodes.size = true := by
    simp [isWaypoint_addWaypoint]
  refine ⟨⟨?_, ?_, ?_, fun hunrouted => ?_⟩, h.toPlaced.congr hrank hlayer rfl rfl⟩
  · rw [hparents, hchildren]
    exact h.count_parentsOf
  · rw [keys_addWaypoint, List.filter_append, List.filter_congr fun key hkey => by rw [hold key hkey],
      ← h.realKeys_eq, List.filter_singleton, hnew]
    simp [Graph.addWaypoint]
  · rw [keys_addWaypoint, List.filter_append, List.filter_congr hold, ← h.waypointKeys_eq,
      List.filter_singleton, hnew]
    rfl
  · exact absurd hrouted (by simpa [Graph.addWaypoint] using hunrouted)

/-- A change of a node that leaves edges, kind and place alone. -/
private theorem modifyNode (h : Consistent g) (key : NodeKey) {change : Node α → Node α}
    (hparents : ∀ node, (change node).parents = node.parents)
    (hchildren : ∀ node, (change node).children = node.children)
    (hkind : ∀ node, (change node).isWaypoint = node.isWaypoint)
    (hrank : ∀ node, (change node).rank = node.rank)
    (hlayer : ∀ node, (change node).layer = node.layer) :
    Consistent (g.modifyNode key change) := by
  refine ⟨h.toLinked.congr (nodes_size_modifyNode _ _ _) ?_ ?_ ?_ rfl rfl rfl,
    h.toPlaced.congr ?_ ?_ rfl rfl⟩
  · funext other
    exact elim_modifyNode_of_same g key Node.parents [] hparents other
  · funext other
    exact elim_modifyNode_of_same g key Node.children [] hchildren other
  · funext other
    exact elim_modifyNode_of_same g key Node.isWaypoint false hkind other
  · funext other
    rw [rankOf_eq_elim, rankOf_eq_elim]
    exact elim_modifyNode_of_same g key Node.rank none hrank other
  · funext other
    rw [layerOf_eq_elim, layerOf_eq_elim]
    exact elim_modifyNode_of_same g key Node.layer none hlayer other

theorem setData (h : Consistent g) (key : NodeKey) (data : α) : Consistent (g.setData key data) := by
  refine h.modifyNode key ?_ ?_ ?_ ?_ ?_ <;> intro node <;> cases hkind : node.kind <;>
    simp [Node.isWaypoint, Node.ends?, hkind]

theorem setPosition (h : Consistent g) (key : NodeKey) (position : Position) :
    Consistent (g.setPosition key position) :=
  h.modifyNode key (fun _ => rfl) (fun _ => rfl) (fun _ => rfl) (fun _ => rfl) fun _ => rfl

/-! ## Edges -/

/-- A change of edges that is made at both ends. -/
private theorem of_edges {g' : Graph α} (h : Consistent g) (hsize : g'.nodes.size = g.nodes.size)
    (hbare : ∀ key, g'.bareNode? key = g.bareNode? key)
    (hfields : g'.realKeys = g.realKeys ∧ g'.waypointKeys = g.waypointKeys ∧
      g'.routed = g.routed ∧ g'.ranking = g.ranking ∧ g'.layers = g.layers)
    (hcount : ∀ dependent parent,
      (g'.parentsOf dependent).count parent = (g'.childrenOf parent).count dependent) :
    Consistent g' := by
  obtain ⟨hreal, hwaypoints, hrouted, hranking, hlayers⟩ := hfields
  have hkind : g'.isWaypoint = g.isWaypoint :=
    funext fun key => isWaypoint_of_bareNode?_eq (hbare key)
  have hplaced : Placed g' := h.toPlaced.congr
    (funext fun key => rankOf_of_bareNode?_eq (hbare key))
    (funext fun key => layerOf_of_bareNode?_eq (hbare key)) hranking hlayers
  refine ⟨⟨hcount, ?_, ?_, ?_⟩, hplaced⟩
  · rw [hreal, keys, hsize, hkind]
    exact h.realKeys_eq
  · rw [hwaypoints, keys, hsize, hkind]
    exact h.waypointKeys_eq
  · rw [hrouted, hwaypoints]
    exact h.waypointKeys_of_unrouted

theorem addEdge (h : Consistent g) (dependent parent : NodeKey) :
    Consistent (g.addEdge dependent parent) := by
  by_cases hends : dependent < g.nodes.size ∧ parent < g.nodes.size
  · exact h.of_edges (by simp) (bareNode?_addEdge g dependent parent)
      (fields_addEdge g dependent parent) (Balanced.addEdge h.count_parentsOf dependent parent)
  · rwa [g.addEdge_of_not_lt hends]

theorem removeEdge (h : Consistent g) (dependent parent : NodeKey) :
    Consistent (g.removeEdge dependent parent) := by
  by_cases hedge : parent ∈ g.parentsOf dependent
  · exact h.of_edges (by simp) (bareNode?_removeEdge g dependent parent)
      (fields_removeEdge g dependent parent) (Balanced.removeEdge h.count_parentsOf dependent parent)
  · rwa [g.removeEdge_of_not_mem hedge]

end Consistent

/-! ## Records -/

/-- A graph of records is built by adding nodes and edges, so it has what these keep. -/
theorem ofRecords_induction {P : Graph α → Prop} (hempty : P .empty)
    (hnode : ∀ (g : Graph α) (id : String) (data : α), P g → P (g.addNode id data))
    (hedge : ∀ (g : Graph α) (dependent parent : NodeKey), P g → P (g.addEdge dependent parent))
    (id : α → String) (parentIds : α → List String) (records : List α) :
    P (ofRecords id parentIds records) := by
  have hlinked : ∀ (g : Graph α) (dependent : NodeKey) (ids : List String), P g →
      P (g.addEdgesTo dependent ids) := by
    intro g dependent ids hg
    refine List.foldlRecOn ids _ hg fun g hg id _ => ?_
    cases g.find? id with
    | none => exact hg
    | some parent => exact hedge g dependent parent hg
  have hbare : P (records.foldl (fun g record => g.addNode (id record) record) .empty) :=
    List.foldlRecOn records _ hempty fun g hg record _ => hnode g (id record) record hg
  exact List.foldlRecOn records.zipIdx _ hbare fun g hg numbered _ =>
    hlinked g numbered.2 (parentIds numbered.1) hg

theorem consistent_ofRecords (id : α → String) (parentIds : α → List String) (records : List α) :
    Consistent (ofRecords id parentIds records) :=
  ofRecords_induction consistent_empty (fun _ id data h => h.addNode id data)
    (fun _ dependent parent h => h.addEdge dependent parent) id parentIds records

end JobGraph.Graph
