import JobGraph.Proofs.Graph.Sizes
import JobGraph.Proofs.Snapshot.Rereading

/-!
# Reading snapshots of graphs

Whatever operations a graph went through, the numbers in its snapshot fit.  So the texts of the
snapshot are read again, and what is read is the snapshot itself unless a real node carries `null`: such
a node is read as one without a payload.
-/

namespace JobGraph

/-- The payloads of a graph are those of its nodes. -/
theorem Graph.mem_payloads {α : Type} {g : Graph α} {key : NodeKey} {data : α}
    (h : g.data? key = some data) : data ∈ g.nodes.toList.filterMap Node.data? := by
  obtain ⟨node, hnode, hdata⟩ := Option.bind_eq_some_iff.1 h
  exact List.mem_filterMap.2 ⟨node, Array.mem_toList_iff.2 (Array.mem_of_getElem? hnode), hdata⟩

namespace Snapshot

open Json (ReadsBack)

variable {α : Type} {encode : α → Json} {g : Graph α} {matrix : Option MatrixIndexing}

theorem exists_of_mem_nodes {node : SnapshotNode} (h : node ∈ (ofGraph encode g matrix).nodes) :
    ∃ key origin, g.node? key = some origin ∧ node = nodeOf encode g origin := by
  obtain ⟨origin, horigin, rfl⟩ := List.mem_map.1 h
  obtain ⟨key, -, hkey⟩ := List.mem_filterMap.1 horigin
  exact ⟨key, origin, hkey, rfl⟩

theorem exists_of_data_nodeOf {node : Node α} {value : Json}
    (h : (nodeOf encode g node).data = some value) :
    ∃ data, node.data? = some data ∧ encode data = value :=
  Option.map_eq_some_iff.1 h

/-- The snapshot of a reachable graph fits, if its nodes can be counted in 64 bits, its cells in 32 bits
and its payloads can be written. -/
theorem fits_ofGraph (h : g.Reachable) (hsize : g.nodes.size ≤ UInt64.size)
    (hcells : ∀ row ∈ (g.matrix matrix).rows, ∀ cell ∈ row, cell < UInt32.size)
    (hpayloads : ∀ key data, g.data? key = some data → (encode data).IsPayload) :
    (ofGraph encode g matrix).Fits where
  nodes node hnode := by
    obtain ⟨key, origin, horigin, rfl⟩ := exists_of_mem_nodes hnode
    have hfield : ∀ {β : Type} {field : Node α → Option β},
        (g.node? key).bind field = field origin := by
      intro β field
      rw [horigin, Option.bind_some]
    refine ⟨(h.index_lt horigin).trans_le hsize, fun rank hrank => ?_, fun layer hlayer => ?_,
      fun value hvalue => ?_⟩
    · exact (h.rank_lt (hfield.trans hrank)).trans_le hsize
    · exact (h.layer_lt (hfield.trans hlayer)).trans_le hsize
    · obtain ⟨data, hdata, rfl⟩ := exists_of_data_nodeOf hvalue
      exact hpayloads key data (hfield.trans hdata)
  cells shown hshown row hrow cell hcell := by
    obtain ⟨indexing, rfl, rfl⟩ := Option.map_eq_some_iff.1 hshown
    exact hcells row hrow cell hcell

/-- A snapshot has a payload that is `null` just if the graph has one. -/
theorem withoutNulls_ofGraph_eq_self_iff (h : g.Reachable) :
    (ofGraph encode g matrix).withoutNulls = ofGraph encode g matrix ↔
      ∀ key data, g.data? key = some data → encode data ≠ .null := by
  rw [withoutNulls_eq_self_iff]
  constructor
  · intro hnulls key data hdata hnull
    obtain ⟨node, hnode, hkind⟩ := Option.bind_eq_some_iff.1 hdata
    have hreal : key ∈ g.realKeys ++ g.waypointKeys :=
      List.mem_append_left _ (h.consistent.toLinked.mem_realKeys_of_data? hdata)
    have hshown : nodeOf encode g node ∈ (ofGraph encode g matrix).nodes :=
      List.mem_map_of_mem (List.mem_filterMap.2 ⟨key, hreal, hnode⟩)
    refine hnulls _ hshown ?_
    rw [nodeOf, hkind, Option.map_some, hnull]
  · rintro hnulls node hnode hnull
    obtain ⟨key, origin, horigin, rfl⟩ := exists_of_mem_nodes hnode
    obtain ⟨data, hdata, hencode⟩ := exists_of_data_nodeOf hnull
    refine hnulls key data ?_ hencode
    rw [Graph.data?, horigin, Option.bind_some, hdata]

/-- **Reading the snapshot of a graph.**  Both texts of the snapshot of a reachable graph are read as
the snapshot without the payloads that are `null`, which is the snapshot itself just if the graph has no
such payload. -/
theorem read?_texts_ofGraph (h : g.Reachable) (hsize : g.nodes.size ≤ UInt64.size)
    (hcells : ∀ row ∈ (g.matrix matrix).rows, ∀ cell ∈ row, cell < UInt32.size)
    (hpayloads : ∀ key data, g.data? key = some data → (encode data).IsPayload)
    (hdoubles : ∀ x ∈ (ofGraph encode g matrix).toJson.doubles, ReadsBack x) :
    read? (ofGraph encode g matrix).compactText = some (ofGraph encode g matrix).withoutNulls ∧
      read? (ofGraph encode g matrix).indentedText = some (ofGraph encode g matrix).withoutNulls ∧
      ((ofGraph encode g matrix).withoutNulls = ofGraph encode g matrix ↔
        ∀ key data, g.data? key = some data → encode data ≠ .null) := by
  obtain ⟨hcompact, hindented⟩ := read?_texts (fits_ofGraph h hsize hcells hpayloads) hdoubles
  exact ⟨hcompact, hindented, withoutNulls_ofGraph_eq_self_iff h⟩

/-- A shortcut across a layer, drawn with a waypoint.  The first node carries `null`. -/
def bridge : Graph Json :=
  Graph.empty.run
    [.addNode "a" .null, .addNode "b" (.object [("k", .array [.integer 1, .double 0.5])]),
      .addNode "c" (.string "\n"), .addEdge 0 1, .addEdge 1 2, .addEdge 0 2,
      .layOut .default, .setPosition 1 ⟨1.5, -2⟩]

theorem isPayload_bridge {key : NodeKey} {data : Json} (h : bridge.data? key = some data) :
    data.IsPayload := by
  have hpayloads : bridge.nodes.toList.filterMap Node.data? =
      [.null, .object [("k", .array [.integer 1, .double 0.5])], .string "\n"] := by decide +kernel
  have hmem := Graph.mem_payloads h
  rw [hpayloads] at hmem
  simp only [List.mem_cons, List.not_mem_nil, or_false] at hmem
  rcases hmem with rfl | rfl | rfl
  · exact ⟨.null _, .null⟩
  · have hone : Json.IsWord 1 := by decide
    constructor
    · exact .object (List.forall_mem_singleton.2 (.array
        (List.forall_mem_cons.2 ⟨.integer _ hone, List.forall_mem_singleton.2 (.double _ trivial)⟩)))
    · exact .object (List.pairwise_singleton _ _) (List.forall_mem_singleton.2 (.array
        (List.forall_mem_cons.2 ⟨.integer _, List.forall_mem_singleton.2 (.double _)⟩)))
  · exact ⟨.string _ _, .string _⟩

/-- The snapshot of the bridge is read again without its `null`. -/
theorem read?_texts_bridge :
    bridge.Reachable ∧ bridge.nodes.size = 4 ∧ bridge.edgeCount = 4 ∧
      (∀ key data, bridge.data? key = some data → data.IsPayload) ∧
      (∀ x ∈ (ofGraph id bridge (some .insertion)).toJson.doubles, ReadsBack x) ∧
      read? (ofGraph id bridge (some .insertion)).compactText =
        some (ofGraph id bridge (some .insertion)).withoutNulls ∧
      read? (ofGraph id bridge (some .insertion)).indentedText =
        some (ofGraph id bridge (some .insertion)).withoutNulls ∧
      (ofGraph id bridge (some .insertion)).withoutNulls ≠ ofGraph id bridge (some .insertion) := by
  have hreachable : bridge.Reachable := Graph.Reachable.empty.run _
  have hsize : bridge.nodes.size = 4 := by decide +kernel
  have hedges : bridge.edgeCount = 4 := by decide +kernel
  have hnull : bridge.data? 0 = some .null := by decide +kernel
  have hdoubles : ∀ x ∈ (ofGraph id bridge (some .insertion)).toJson.doubles, ReadsBack x := by
    decide +kernel
  have hcells : ∀ row ∈ (bridge.matrix (some .insertion)).rows, ∀ cell ∈ row, cell < UInt32.size :=
    fun row hrow cell hcell =>
      (hreachable.consistent.toLinked.cell_le_edgeCount hrow hcell).trans_lt (by rw [hedges]; decide)
  have hpayloads : ∀ key data, bridge.data? key = some data → (id data).IsPayload :=
    fun _ _ => isPayload_bridge
  obtain ⟨hcompact, hindented, hiff⟩ :=
    read?_texts_ofGraph hreachable (hsize.trans_le (by decide)) hcells hpayloads hdoubles
  exact ⟨hreachable, hsize, hedges, hpayloads, hdoubles, hcompact, hindented,
    fun hsame => hiff.1 hsame 0 .null hnull rfl⟩

/-- One node that carries `null`. -/
def blank : Graph Json :=
  Graph.empty.run [.addNode "a" .null]

theorem isPayload_blank {key : NodeKey} {data : Json} (h : blank.data? key = some data) :
    data.IsPayload := by
  have hpayloads : blank.nodes.toList.filterMap Node.data? = [.null] := by decide +kernel
  have hmem := Graph.mem_payloads h
  rw [hpayloads] at hmem
  obtain rfl := List.mem_singleton.1 hmem
  exact ⟨.null _, .null⟩

/-- The text says `null`, and that is read as no payload at all. -/
theorem read?_texts_blank :
    blank.Reachable ∧ blank.data? 0 = some .null ∧ Json.IsPayload .null ∧
      (∀ x ∈ (ofGraph id blank none).toJson.doubles, ReadsBack x) ∧
      read? (ofGraph id blank none).compactText ≠ some (ofGraph id blank none) ∧
      read? (ofGraph id blank none).indentedText ≠ some (ofGraph id blank none) := by
  have hreachable : blank.Reachable := Graph.Reachable.empty.run _
  have hnull : blank.data? 0 = some .null := by decide +kernel
  have hdoubles : ∀ x ∈ (ofGraph id blank none).toJson.doubles, ReadsBack x := by decide +kernel
  have hsize : blank.nodes.size = 1 := by decide +kernel
  have hcells : ∀ row ∈ (blank.matrix none).rows, ∀ cell ∈ row, cell < UInt32.size := by
    decide +kernel
  have hfits : (ofGraph id blank none).Fits :=
    fits_ofGraph hreachable (hsize.trans_le (by decide)) hcells fun _ _ => isPayload_blank
  obtain ⟨hcompact, hindented⟩ := read?_texts hfits hdoubles
  have hother : (ofGraph id blank none).withoutNulls ≠ ofGraph id blank none := fun hsame =>
    (withoutNulls_ofGraph_eq_self_iff hreachable).1 hsame 0 .null hnull rfl
  refine ⟨hreachable, hnull, ⟨.null _, .null⟩, hdoubles, ?_, ?_⟩
  · rw [hcompact]
    exact mt Option.some.inj hother
  · rw [hindented]
    exact mt Option.some.inj hother

end Snapshot

end JobGraph
