import JobGraph.Proofs.Graph.Contraction
import JobGraph.Proofs.Graph.WaypointEnds
import JobGraph.Proofs.Snapshot.Graphs
import JobGraph.Proofs.Steps

/-!
# The parts of a snapshot agree

A snapshot tells the same facts several times: layers and ranking once as lists and once with the nodes,
edges once as a list and once with their dependents.  A view reads each from the part that is handy.  In
the snapshot of a reachable graph the parts agree, `Agrees`, whatever operations the graph went through.

* **Nodes by key.**  The nodes of a snapshot are read off the keys of the graph one by one, `shown`, so that
  every part is told by a list of keys.  That these lists agree is what a graph keeps, `Consistent` and
  `Coherent`.
* **Payloads.**  A snapshot fails if a payload has no JSON.  One that succeeds is also made by an encoding
  that never fails, `eq_ofGraph_of_ok`.
-/

namespace JobGraph

namespace Graph

variable {α : Type} {g : Graph α}

/-! ## Lists of keys -/

theorem Linked.keys_perm (h : Linked g) : (g.realKeys ++ g.waypointKeys).Perm g.keys := by
  rw [h.realKeys_eq, h.waypointKeys_eq]
  simpa using List.filter_append_perm (fun key => !g.isWaypoint key) g.keys

/-- The nodes that tell a layer are those that the layer lists. -/
theorem Consistent.filter_layerOf_perm (h : Consistent g) {layer : Nat} {keys : List NodeKey}
    (hkeys : g.layers[layer]? = some keys) :
    ((g.realKeys ++ g.waypointKeys).filter fun key => g.layerOf key = some layer).Perm keys := by
  have hnodup : (g.realKeys ++ g.waypointKeys).Nodup := h.toLinked.keys_perm.nodup_iff.2 g.nodup_keys
  -- neither list has a key twice, so it is enough that they have the same keys
  refine (List.perm_ext_iff_of_nodup (hnodup.filter _)
    (h.nodup_layers keys (List.mem_of_getElem? hkeys))).2 fun key => ?_
  have hmem : key ∈ g.layers[layer]?.getD [] ↔ g.layerOf key = some layer := h.mem_layer_iff
  rw [hkeys, Option.getD_some] at hmem
  rw [List.mem_filter, h.toLinked.keys_perm.mem_iff, mem_keys, decide_eq_true_eq, hmem]
  exact and_iff_right_of_imp g.lt_of_layerOf

/-- The node that tells a rank is the one that the ranking lists there. -/
theorem Consistent.filter_rankOf_eq (h : Consistent g) {rank : Nat} {key : NodeKey}
    (hkey : g.ranking[rank]? = some key) :
    ((g.realKeys ++ g.waypointKeys).filter fun key => g.rankOf key = some rank) = [key] := by
  have hnodup : (g.realKeys ++ g.waypointKeys).Nodup := h.toLinked.keys_perm.nodup_iff.2 g.nodup_keys
  refine List.perm_singleton.1 ((List.perm_ext_iff_of_nodup (hnodup.filter _)
    (List.nodup_singleton key)).2 fun other => ?_)
  rw [List.mem_filter, h.toLinked.keys_perm.mem_iff, decide_eq_true_eq, h.rankOf_iff, hkey,
    Option.some.injEq, List.mem_singleton, mem_keys]
  constructor
  · exact fun hother => hother.2.symm
  · rintro rfl
    refine ⟨?_, rfl⟩
    obtain ⟨node, hnode, -⟩ := Option.bind_eq_some_iff.1 ((h.rankOf_iff other rank).2 hkey)
    exact (Array.getElem?_eq_some_iff.1 hnode).1

theorem Linked.keysOfKind_eq (h : Linked g) (waypoint : Bool) :
    g.keysOfKind waypoint = g.keys.filter fun key => g.isWaypoint key = waypoint := by
  cases waypoint with
  | true => simpa [keysOfKind] using h.waypointKeys_eq
  | false => simpa [keysOfKind] using h.realKeys_eq

/-- The nodes of a kind are numbered from zero on. -/
theorem Reachable.map_index_keysOfKind (h : Reachable g) (waypoint : Bool) :
    (g.keysOfKind waypoint).map (fun key => (g.node? key).elim 0 Node.index) =
      List.range (g.keysOfKind waypoint).length := by
  have hkeys := h.consistent.toLinked.keysOfKind_eq waypoint
  have hnodup : (g.keysOfKind waypoint).Nodup := by
    rw [hkeys]
    exact g.nodup_keys.filter _
  refine List.ext_getElem (by simp) fun place hplace _ => ?_
  rw [List.length_map] at hplace
  have hkind : ∀ key ∈ g.keysOfKind waypoint, key < g.nodes.size ∧ g.isWaypoint key = waypoint := by
    intro key hkey
    rwa [hkeys, List.mem_filter, mem_keys, decide_eq_true_eq] at hkey
  obtain ⟨hsize, hwaypoint⟩ := hkind _ (List.getElem_mem hplace)
  -- the list has the node at the place of its number, and it has no node twice
  have hnode : g.node? (g.keysOfKind waypoint)[place] = some (g.nodes[(g.keysOfKind waypoint)[place]]) :=
    Array.getElem?_eq_getElem hsize
  have hindex := h.coherent.getElem?_index _ _ hnode
  rw [isWaypoint, hnode, Option.elim_some] at hwaypoint
  rw [hwaypoint] at hindex
  rw [List.getElem_map, List.getElem_range, hnode, Option.elim_some]
  obtain ⟨hlt, heq⟩ := List.getElem?_eq_some_iff.1 hindex
  exact hnodup.getElem_inj_iff.1 heq

end Graph

namespace Snapshot

variable {α Fault : Type} {g : Graph α} {matrix : Option MatrixIndexing} {s : Snapshot}

/-! ## Payloads -/

/-- An encoding that never fails. -/
def encodeOr (encode : α → Except Fault Json) (data : α) : Json :=
  match encode data with
  | .ok value => value
  | .error _ => .null

theorem tryNodeOf_eq_ok {encode : α → Except Fault Json} {node : Node α} {shown : SnapshotNode}
    (hok : tryNodeOf encode g node = .ok shown) : shown = nodeOf (encodeOr encode) g node := by
  obtain ⟨data, hdata, hshown⟩ := bind_eq_ok.1 hok
  obtain rfl := Except.ok.inj hshown
  have hencoded : data = node.data?.map (encodeOr encode) := by
    cases hpayload : node.data? with
    | none =>
        rw [hpayload] at hdata
        exact (Except.ok.inj hdata).symm
    | some payload =>
        rw [hpayload, Option.mapM_some] at hdata
        cases hvalue : encode payload with
        | error fault =>
            rw [hvalue] at hdata
            exact absurd hdata nofun
        | ok value =>
            rw [hvalue] at hdata
            rw [← Except.ok.inj hdata, Option.map_some, encodeOr, hvalue]
  rw [hencoded]
  rfl

theorem mapM_tryNodeOf_eq_ok {encode : α → Except Fault Json} {nodes : List (Node α)}
    {shown : List SnapshotNode} (hok : nodes.mapM (tryNodeOf encode g) = .ok shown) :
    shown = nodes.map (nodeOf (encodeOr encode) g) := by
  induction nodes generalizing shown with
  | nil => exact (Except.ok.inj hok).symm
  | cons node rest ih =>
      rw [List.mapM_cons] at hok
      obtain ⟨first, hfirst, hok⟩ := bind_eq_ok.1 hok
      obtain ⟨others, hothers, hok⟩ := bind_eq_ok.1 hok
      rw [← Except.ok.inj hok, tryNodeOf_eq_ok hfirst, ih hothers, List.map_cons]

/-- If every payload has JSON, the snapshot succeeds. -/
theorem tryOfGraph_ok (encode : α → Json) (g : Graph α) (matrix : Option MatrixIndexing) :
    tryOfGraph (fun data => (.ok (encode data) : Except Fault Json)) g matrix =
      .ok (ofGraph encode g matrix) := by
  have hnode : ∀ node, tryNodeOf (fun data => (.ok (encode data) : Except Fault Json)) g node =
      .ok (nodeOf encode g node) := by
    intro node
    unfold tryNodeOf nodeOf
    cases node.data? <;> rfl
  have hnodes : ∀ nodes : List (Node α),
      nodes.mapM (tryNodeOf (fun data => (.ok (encode data) : Except Fault Json)) g) =
        .ok (nodes.map (nodeOf encode g)) := by
    intro nodes
    induction nodes with
    | nil => rfl
    | cons node rest ih =>
        rw [List.mapM_cons, hnode, ih]
        rfl
  rw [tryOfGraph, hnodes]
  rfl

/-- A snapshot that succeeds is one by an encoding that never fails. -/
theorem eq_ofGraph_of_ok {encode : α → Except Fault Json} (hok : tryOfGraph encode g matrix = .ok s) :
    s = ofGraph (encodeOr encode) g matrix := by
  obtain ⟨nodes, hnodes, hs⟩ := bind_eq_ok.1 hok
  rw [← Except.ok.inj hs, mapM_tryNodeOf_eq_ok hnodes]
  rfl

/-! ## Nodes by key -/

/-- What a snapshot shows of a key. -/
def shown (encode : α → Json) (g : Graph α) (key : NodeKey) : SnapshotNode :=
  { id := g.idOf key
    isWaypoint := g.isWaypoint key
    index := (g.node? key).elim 0 Node.index
    rank := g.rankOf key
    layer := g.layerOf key
    position := (g.node? key).elim .origin Node.position
    parentIds := (g.parentsOf key).map g.idOf
    data := (g.data? key).map encode
    sourceId := ((g.node? key).bind Node.ends?).map fun ends => g.idOf ends.1
    targetId := ((g.node? key).bind Node.ends?).map fun ends => g.idOf ends.2 }

theorem shown_eq {encode : α → Json} {key : NodeKey} {node : Node α}
    (hnode : g.node? key = some node) : shown encode g key = nodeOf encode g node := by
  simp [shown, nodeOf, Graph.idOf, Graph.isWaypoint, Graph.rankOf, Graph.layerOf, Graph.parentsOf,
    Graph.data?, hnode]

theorem nodes_ofGraph (h : g.Linked) (encode : α → Json) (matrix : Option MatrixIndexing) :
    (ofGraph encode g matrix).nodes = (g.realKeys ++ g.waypointKeys).map (shown encode g) := by
  show ((g.realKeys ++ g.waypointKeys).filterMap g.node?).map (nodeOf encode g) = _
  rw [List.map_filterMap, ← List.filterMap_eq_map]
  refine List.filterMap_congr fun key hkey => ?_
  rw [h.keys_perm.mem_iff, Graph.mem_keys] at hkey
  have hnode : g.node? key = some g.nodes[key] := Array.getElem?_eq_getElem hkey
  rw [hnode, Option.map_some, Function.comp_apply, shown_eq hnode]

/-! ## Agreement -/

/-- The nodes of one kind, all of them in the order of their creation and numbered from zero on. -/
structure Lists (g : Graph α) (waypoint : Bool) (nodes : List SnapshotNode) : Prop where
  ids : nodes.map SnapshotNode.id =
    (g.keys.filter fun key => g.isWaypoint key = waypoint).map g.idOf
  isWaypoint : ∀ node ∈ nodes, node.isWaypoint = waypoint
  indices : nodes.map SnapshotNode.index = List.range nodes.length

/-- The number of real nodes that a snapshot shows. -/
def realCount (s : Snapshot) : Nat :=
  s.nodes.countP fun node => !node.isWaypoint

/-- The snapshot `s` of the graph `g`, with or without a matrix, tells one layout in all its parts. -/
structure Agrees (g : Graph α) (matrix : Option MatrixIndexing) (s : Snapshot) : Prop where
  /-- The real nodes come first, then the waypoints. -/
  nodes_eq : ∃ real waypoints, s.nodes = real ++ waypoints ∧ Lists g false real ∧
    Lists g true waypoints
  /-- A layer lists the nodes that tell it, in some order. -/
  layer_perm : ∀ (layer : Nat) ids, s.layers[layer]? = some ids →
    ids.Perm ((s.nodes.filter fun node => node.layer = some layer).map SnapshotNode.id)
  layer_lt : ∀ node ∈ s.nodes, ∀ layer, node.layer = some layer → layer < s.layers.length
  /-- The ranking lists at its place the one node that tells the rank. -/
  rank_eq : ∀ (rank : Nat) id, s.ranking[rank]? = some id →
    (s.nodes.filter fun node => node.rank = some rank).map SnapshotNode.id = [id]
  rank_lt : ∀ node ∈ s.nodes, ∀ rank, node.rank = some rank → rank < s.ranking.length
  /-- The edges are those that the dependents tell, as often. -/
  edges_perm : s.edges.Perm
    (s.nodes.flatMap fun node => node.parentIds.map (SnapshotEdge.mk node.id))
  data_isSome : ∀ node ∈ s.nodes, node.data.isSome = !node.isWaypoint
  sourceId_isSome : ∀ node ∈ s.nodes, node.sourceId.isSome = node.isWaypoint
  targetId_isSome : ∀ node ∈ s.nodes, node.targetId.isSome = node.isWaypoint
  /-- The ends of a waypoint's edge are real nodes. -/
  ends_real : ∀ node ∈ s.nodes, ∀ id, node.sourceId = some id ∨ node.targetId = some id →
    ∃ other ∈ s.nodes, other.isWaypoint = false ∧ other.id = id
  matrix_isSome : s.matrix.isSome = matrix.isSome
  /-- A matrix has a row and a column for each real node. -/
  matrix_size : ∀ shown, s.matrix = some shown →
    shown.rows.length = s.realCount ∧ ∀ row ∈ shown.rows, row.length = s.realCount

section OfGraph

variable {encode : α → Json}

theorem lists_map_shown (h : g.Reachable) (encode : α → Json) (waypoint : Bool) :
    Lists g waypoint ((g.keysOfKind waypoint).map (shown encode g)) where
  ids := by
    rw [List.map_map, ← h.consistent.toLinked.keysOfKind_eq]
    rfl
  isWaypoint := by
    rw [h.consistent.toLinked.keysOfKind_eq]
    rintro node hnode
    obtain ⟨key, hkey, rfl⟩ := List.mem_map.1 hnode
    exact of_decide_eq_true (List.mem_filter.1 hkey).2
  indices := by
    rw [List.map_map, List.length_map]
    exact h.map_index_keysOfKind waypoint

/-- Nodes chosen by what they show are chosen by their keys. -/
theorem map_id_filter_nodes (h : g.Linked) (choose : SnapshotNode → Bool) :
    ((ofGraph encode g matrix).nodes.filter choose).map SnapshotNode.id =
      ((g.realKeys ++ g.waypointKeys).filter fun key => choose (shown encode g key)).map g.idOf := by
  rw [nodes_ofGraph h, List.filter_map, List.map_map]
  rfl

/-- A snapshot shows as many real nodes as the graph has. -/
theorem realCount_ofGraph (h : g.Reachable) :
    (ofGraph encode g matrix).realCount = g.realKeys.length := by
  have hreal := (lists_map_shown h encode false).isWaypoint
  have hwaypoints := (lists_map_shown h encode true).isWaypoint
  have hfirst : (g.realKeys.map (shown encode g)).countP (fun node => !node.isWaypoint) =
      g.realKeys.length := by
    rw [List.countP_eq_length.2 fun node hnode => by rw [hreal node hnode]; rfl, List.length_map]
  have hsecond : (g.waypointKeys.map (shown encode g)).countP (fun node => !node.isWaypoint) = 0 := by
    rw [List.countP_eq_zero]
    intro node hnode
    rw [hwaypoints node hnode]
    exact Bool.false_ne_true
  rw [realCount, nodes_ofGraph h.consistent.toLinked, List.map_append, List.countP_append, hfirst,
    hsecond, Nat.add_zero]

theorem edges_ofGraph_perm (h : g.Linked) : (ofGraph encode g matrix).edges.Perm
    ((ofGraph encode g matrix).nodes.flatMap fun node =>
      node.parentIds.map (SnapshotEdge.mk node.id)) := by
  have hkeys : g.keys.flatMap (fun key => ((g.parentsOf key).map g.idOf).map
      (SnapshotEdge.mk (g.idOf key))) = (ofGraph encode g matrix).edges := by
    show _ = g.edges.map fun edge => SnapshotEdge.mk (g.idOf edge.dependent) (g.idOf edge.parent)
    rw [Graph.edges, List.map_flatMap]
    simp only [List.map_map]
    rfl
  rw [← hkeys, nodes_ofGraph h, List.flatMap_map]
  exact (h.keys_perm.flatMap_right _).symm

theorem exists_shown (h : g.Linked) {node : SnapshotNode}
    (hnode : node ∈ (ofGraph encode g matrix).nodes) : ∃ key, node = shown encode g key := by
  rw [nodes_ofGraph h] at hnode
  obtain ⟨key, -, rfl⟩ := List.mem_map.1 hnode
  exact ⟨key, rfl⟩

/-- The layers of a snapshot list the keys of the graph's layers. -/
theorem layer_perm_ofGraph (h : g.Consistent) {layer : Nat} {ids : List String}
    (hids : (ofGraph encode g matrix).layers[layer]? = some ids) :
    ids.Perm (((ofGraph encode g matrix).nodes.filter fun node => node.layer = some layer).map
      SnapshotNode.id) := by
  have hlayers : (ofGraph encode g matrix).layers = g.layers.map fun keys => keys.map g.idOf := rfl
  rw [hlayers, List.getElem?_map] at hids
  obtain ⟨keys, hkeys, rfl⟩ := Option.map_eq_some_iff.1 hids
  rw [map_id_filter_nodes h.toLinked]
  exact ((h.filter_layerOf_perm hkeys).map g.idOf).symm

theorem rank_eq_ofGraph (h : g.Consistent) {rank : Nat} {id : String}
    (hid : (ofGraph encode g matrix).ranking[rank]? = some id) :
    ((ofGraph encode g matrix).nodes.filter fun node => node.rank = some rank).map
      SnapshotNode.id = [id] := by
  have hranking : (ofGraph encode g matrix).ranking = g.ranking.map g.idOf := rfl
  rw [hranking, List.getElem?_map] at hid
  obtain ⟨key, hkey, rfl⟩ := Option.map_eq_some_iff.1 hid
  rw [map_id_filter_nodes h.toLinked]
  exact congrArg (List.map g.idOf) (h.filter_rankOf_eq hkey)

/-- Real nodes are shown. -/
theorem exists_shown_of_mem_realKeys (h : g.Reachable) {key : NodeKey} (hkey : key ∈ g.realKeys) :
    ∃ node ∈ (ofGraph encode g matrix).nodes, node.isWaypoint = false ∧ node.id = g.idOf key := by
  have hshown := List.mem_map_of_mem (f := shown encode g) hkey
  refine ⟨_, ?_, (lists_map_shown h encode false).isWaypoint _ hshown, rfl⟩
  rw [nodes_ofGraph h.consistent.toLinked, List.map_append]
  exact List.mem_append_left _ hshown

/-- Whatever payloads become, the parts of the snapshot of a reachable graph agree. -/
theorem agrees_ofGraph (h : g.Reachable) (encode : α → Json) (matrix : Option MatrixIndexing) :
    Agrees g matrix (ofGraph encode g matrix) := by
  have hconsistent := h.consistent
  have hlinked := hconsistent.toLinked
  refine { nodes_eq := ?_, layer_perm := fun layer ids => layer_perm_ofGraph hconsistent
           layer_lt := ?_, rank_eq := fun rank id => rank_eq_ofGraph hconsistent, rank_lt := ?_
           edges_perm := edges_ofGraph_perm hlinked, data_isSome := ?_, sourceId_isSome := ?_
           targetId_isSome := ?_, ends_real := ?_, matrix_isSome := Option.isSome_map
           matrix_size := ?_ }
  · refine ⟨_, _, ?_, lists_map_shown h encode false, lists_map_shown h encode true⟩
    rw [nodes_ofGraph hlinked, List.map_append]
    rfl
  · intro node hnode layer hlayer
    obtain ⟨key, rfl⟩ := exists_shown hlinked hnode
    show layer < (g.layers.map fun keys => keys.map g.idOf).length
    rw [List.length_map]
    exact hconsistent.lt_length_of_layerOf hlayer
  · intro node hnode rank hrank
    obtain ⟨key, rfl⟩ := exists_shown hlinked hnode
    have hplace := (hconsistent.rankOf_iff key rank).1 hrank
    show rank < (g.ranking.map g.idOf).length
    rw [List.length_map]
    exact (List.getElem?_eq_some_iff.1 hplace).1
  · intro node hnode
    obtain ⟨key, origin, -, rfl⟩ := exists_of_mem_nodes hnode
    show (origin.data?.map encode).isSome = !origin.isWaypoint
    rw [Option.isSome_map, Node.isWaypoint, Node.data?, Node.ends?]
    cases origin.kind <;> rfl
  · intro node hnode
    obtain ⟨key, origin, -, rfl⟩ := exists_of_mem_nodes hnode
    exact Option.isSome_map
  · intro node hnode
    obtain ⟨key, origin, -, rfl⟩ := exists_of_mem_nodes hnode
    exact Option.isSome_map
  · intro node hnode id hid
    obtain ⟨key, rfl⟩ := exists_shown hlinked hnode
    rcases hid with hid | hid
    · obtain ⟨⟨source, target⟩, hends, rfl⟩ := Option.map_eq_some_iff.1 hid
      exact exists_shown_of_mem_realKeys h (h.endsReal key source target hends).1
    · obtain ⟨⟨source, target⟩, hends, rfl⟩ := Option.map_eq_some_iff.1 hid
      exact exists_shown_of_mem_realKeys h (h.endsReal key source target hends).2
  · intro shown hshown
    obtain ⟨indexing, rfl, rfl⟩ := Option.map_eq_some_iff.1 hshown
    rw [realCount_ofGraph h, Graph.matrix_eq_tally hlinked]
    exact ⟨DependencyMatrix.size_tally _, fun row hrow =>
      DependencyMatrix.length_of_mem_rows_tally hrow⟩

end OfGraph

/-- **Agreement.**  A snapshot of a graph that succeeds, whatever operations led to the graph, tells one
layout in all its parts. -/
theorem agrees_of_tryOfGraph {encode : α → Except Fault Json} (h : g.Reachable)
    (hok : tryOfGraph encode g matrix = .ok s) : Agrees g matrix s := by
  rw [eq_ofGraph_of_ok hok]
  exact agrees_ofGraph h (encodeOr encode) matrix

/-- The knot has two nodes of one id, a node on a cycle, a waypoint and a real node that came later. -/
theorem agrees_knot :
    Graph.knot.Reachable ∧
      tryOfGraph (fun _ => (.ok .null : Except String Json)) Graph.knot (some .rank) =
        .ok (ofGraph (fun _ => .null) Graph.knot (some .rank)) ∧
      Agrees Graph.knot (some .rank) (ofGraph (fun _ => .null) Graph.knot (some .rank)) ∧
      (ofGraph (fun _ => .null) Graph.knot (some .rank)).nodes.map SnapshotNode.id =
        ["a", "b", "c", "d", "b", "c:a:1"] := by
  have hreachable : Graph.knot.Reachable := Graph.Reachable.empty.run _
  have hok : tryOfGraph (fun _ => (.ok .null : Except String Json)) Graph.knot (some .rank) =
      .ok (ofGraph (fun _ => .null) Graph.knot (some .rank)) := tryOfGraph_ok _ _ _
  refine ⟨hreachable, hok, agrees_of_tryOfGraph hreachable hok, ?_⟩
  decide +kernel

end Snapshot

end JobGraph
