import JobGraph.Proofs.Json.Parsing
import JobGraph.Proofs.Json.Records
import JobGraph.Snapshot.Json

/-!
# Reading snapshots again

A snapshot is read from its own texts as it was written, with one exception: a payload that is `null`
is written as a member of that name, and a member that is `null` counts as absent.  The texts are those
of a snapshot that `Fits`: its numbers fit into their types and its payloads can be written.

A snapshot that was read has no such payload, whatever the text was like.  So reading puts a text into
a form of its own, and from then on writing and reading undo each other.
-/

namespace JobGraph

open Json (Document ReadsBack Legible Canonical slotMembers optional_map)

/-! ## Snapshots that can be written -/

/-- What a payload may be so that a snapshot with it can be written: three levels are taken by the
snapshot, its nodes and the node. -/
def Json.IsPayload (data : Json) : Prop :=
  Legible (fun _ => True) (Json.nestingLimit - 3) data ∧ Canonical data

/-- The numbers of a node fit into 64 bits, and its payload can be written. -/
structure SnapshotNode.Fits (node : SnapshotNode) : Prop where
  index_lt : node.index < UInt64.size
  rank_lt : ∀ rank ∈ node.rank, rank < UInt64.size
  layer_lt : ∀ layer ∈ node.layer, layer < UInt64.size
  isPayload : ∀ data ∈ node.data, data.IsPayload

/-- The nodes fit, and the cells of the matrix fit into 32 bits. -/
structure Snapshot.Fits (snapshot : Snapshot) : Prop where
  nodes : ∀ node ∈ snapshot.nodes, node.Fits
  cells : ∀ matrix ∈ snapshot.matrix, ∀ row ∈ matrix.rows, ∀ cell ∈ row, cell < UInt32.size

/-- A node whose payload is taken away when it is `null`. -/
def SnapshotNode.withoutNull (node : SnapshotNode) : SnapshotNode :=
  { node with data := node.data.filter fun data => !data.isNull }

/-- A snapshot without the payloads that are `null`. -/
def Snapshot.withoutNulls (snapshot : Snapshot) : Snapshot :=
  { snapshot with nodes := snapshot.nodes.map SnapshotNode.withoutNull }

theorem Json.isNull_iff {value : Json} : value.isNull = true ↔ value = .null := by
  cases value <;> simp [Json.isNull]

theorem SnapshotNode.withoutNull_eq_self_iff (node : SnapshotNode) :
    node.withoutNull = node ↔ node.data ≠ some .null := by
  obtain ⟨id, isWaypoint, index, rank, layer, position, parentIds, data, sourceId, targetId⟩ := node
  cases data with
  | none => exact iff_of_true rfl nofun
  | some value =>
      cases hnull : value.isNull with
      | true =>
          rw [Json.isNull_iff] at hnull
          exact iff_of_false (by simp [withoutNull, hnull, Json.isNull]) (by simp [hnull])
      | false =>
          refine iff_of_true (by simp [withoutNull, hnull]) ?_
          rintro heq
          rw [Option.some.injEq, ← Json.isNull_iff, hnull] at heq
          exact absurd heq Bool.false_ne_true

/-- Nothing is taken away unless a payload is `null`. -/
theorem Snapshot.withoutNulls_eq_self_iff (snapshot : Snapshot) :
    snapshot.withoutNulls = snapshot ↔ ∀ node ∈ snapshot.nodes, node.data ≠ some .null := by
  have hnodes : snapshot.withoutNulls = snapshot ↔
      snapshot.nodes.map SnapshotNode.withoutNull = snapshot.nodes := by
    constructor
    · exact fun h => congrArg Snapshot.nodes h
    · intro h
      rw [withoutNulls, h]
  have hsame : snapshot.nodes.map SnapshotNode.withoutNull = snapshot.nodes.map (fun node => node) ↔
      ∀ node ∈ snapshot.nodes, node.withoutNull = node := List.map_inj_left
  rw [List.map_id'] at hsame
  rw [hnodes, hsame]
  exact forall₂_congr fun node _ => node.withoutNull_eq_self_iff

/-! ## Positions, matrices and edges -/

theorem Position.decode?_toJson (position : Position) :
    decode? position.toJson.document = some position :=
  rfl

theorem SnapshotEdge.decode?_toJson (edge : SnapshotEdge) :
    decode? edge.toJson.document = some edge :=
  rfl

theorem MatrixIndexing.decode?_name (indexing : MatrixIndexing) :
    decode? (Json.string indexing.name).document = some indexing := by
  cases indexing <;> rfl

theorem DependencyMatrix.decode?_toJson {matrix : DependencyMatrix}
    (h : ∀ row ∈ matrix.rows, ∀ cell ∈ row, cell < UInt32.size) :
    decode? matrix.toJson.document = some matrix := by
  have hrows : Document.list? (Document.list? Document.natural32?)
      (Json.array (matrix.rows.map fun row => .array (row.map Json.ofNat))).document =
        some matrix.rows :=
    Document.list?_map_self fun row hrow => Document.list?_map_self fun cell hcell =>
      Document.natural?_ofNat (h row hrow cell hcell)
  show ((Document.required MatrixIndexing.decode? (some (Json.string matrix.indexing.name).document)).bind
    fun indexing => (Document.required (Document.list? (Document.list? Document.natural32?))
      (some (Json.array (matrix.rows.map fun row => .array (row.map Json.ofNat))).document)).bind
        fun rows => some (⟨indexing, rows⟩ : DependencyMatrix)) = some matrix
  rw [Document.required, MatrixIndexing.decode?_name, Document.required, hrows]
  rfl

theorem DependencyMatrix.cell_lt_of_decode? {document : Document} {matrix : DependencyMatrix}
    (h : decode? document = some matrix) {row : List Nat} (hrow : row ∈ matrix.rows) {cell : Nat}
    (hcell : cell ∈ row) : cell < UInt32.size := by
  unfold decode? at h
  obtain ⟨parts, -, h⟩ := Option.bind_eq_some_iff.1 h
  split at h
  · simp only [Option.bind_eq_bind, Option.bind_eq_some_iff, Option.some.injEq] at h
    obtain ⟨_, -, rows, hrows, rfl⟩ := h
    obtain ⟨part, -, hlist⟩ := Document.exists_of_required hrows
    obtain ⟨_, -, item, -, hitem⟩ := Document.exists_of_mem_list? hlist hrow
    obtain ⟨_, -, n, -, hn⟩ := Document.exists_of_mem_list? hitem hcell
    exact Document.lt_of_natural? (by decide) hn
  · exact absurd h nofun

/-! ## Nodes -/

namespace SnapshotNode

variable {node : SnapshotNode}

/-- The parts of a node by their names. -/
def slots (node : SnapshotNode) : List (String × Option Json) :=
  [("id", some (.string node.id)), ("pseudo", some (.bool node.isWaypoint)),
    ("index", some (.ofNat node.index)), ("topologicalIndex", node.rank.map Json.ofNat),
    ("topologicalGroupIndex", node.layer.map Json.ofNat), ("position", some node.position.toJson),
    ("parentIds", some (.ofTexts node.parentIds)), ("data", node.data),
    ("sourceId", node.sourceId.map Json.string), ("targetId", node.targetId.map Json.string)]

theorem toJson_eq (node : SnapshotNode) : node.toJson = .object (slotMembers node.slots) := by
  simp only [toJson, slots, slotMembers, List.flatMap_cons, List.flatMap_nil, optional_map,
    List.append_assoc, List.append_nil]
  rfl

theorem fields?_toJson (node : SnapshotNode) :
    node.toJson.document.allFields? fieldNames =
      some (node.slots.map fun slot => slot.2.map Json.document) := by
  have hnames : (node.slots.map Prod.fst).Nodup := show fieldNames.Nodup by decide
  rw [toJson_eq]
  exact (Document.fields?_record hnames).2

theorem decode?_toJson (h : node.Fits) : decode? node.toJson.document = some node.withoutNull := by
  have hword : ∀ n : Nat, n < UInt64.size → Document.natural64? (Json.ofNat n).document = some n :=
    fun n hn => Document.natural?_ofNat hn
  have hrank : Document.nullable Document.natural64? ((node.rank.map Json.ofNat).map Json.document) =
      some node.rank :=
    Document.nullable_map fun rank hrank => ⟨nofun, hword rank (h.rank_lt rank hrank)⟩
  have hlayer : Document.nullable Document.natural64?
      ((node.layer.map Json.ofNat).map Json.document) = some node.layer :=
    Document.nullable_map fun layer hlayer => ⟨nofun, hword layer (h.layer_lt layer hlayer)⟩
  have htext : ∀ text : Option String,
      Document.nullable Document.text? ((text.map Json.string).map Json.document) = some text :=
    fun text => Document.nullable_map fun _ _ => ⟨nofun, rfl⟩
  have hdata : Document.nullable Document.value? (node.data.map Json.document) =
      some (node.data.filter fun data => !data.isNull) := by
    cases hdata : node.data with
    | none => rfl
    | some data =>
        have hread := Document.value?_document (h.isPayload data hdata).2
        cases data with
        | null => rfl
        | _ =>
            rw [Option.map_some]
            exact congrArg (Option.map some) hread
  unfold decode?
  rw [fields?_toJson]
  simp only [slots, List.map_cons, List.map_nil, Option.map_some, Option.bind_eq_bind,
    Option.bind_some, Document.required, hword _ h.index_lt, hrank, hlayer, htext, hdata,
    Position.decode?_toJson, Document.list?_ofTexts]
  rfl

/-- A node that fits is legible, three levels above its payload. -/
theorem legible_toJson (h : node.Fits) :
    Legible (fun _ => True) (Json.nestingLimit - 3 + 1) node.toJson := by
  have hword : ∀ n : Nat, n < UInt64.size →
      Legible (fun _ => True) (Json.nestingLimit - 3) (Json.ofNat n) :=
    fun n hn => .integer _ (Json.isWord_of_lt hn)
  have hwords : ∀ number : Option Nat, (∀ n ∈ number, n < UInt64.size) →
      ∀ value ∈ number.map Json.ofNat, Legible (fun _ => True) (Json.nestingLimit - 3) value := by
    intro number hnumber value hvalue
    obtain ⟨n, hn, rfl⟩ := Option.map_eq_some_iff.1 hvalue
    exact hword n (hnumber n hn)
  have htexts : ∀ text : Option String, ∀ value ∈ text.map Json.string,
      Legible (fun _ => True) (Json.nestingLimit - 3) value := by
    intro text value hvalue
    obtain ⟨_, -, rfl⟩ := Option.map_eq_some_iff.1 hvalue
    exact .string _ _
  have hposition : Legible (fun _ => True) (Json.nestingLimit - 3) node.position.toJson := by
    refine .object (List.forall_mem_cons.2 ⟨?_, List.forall_mem_singleton.2 ?_⟩) <;>
      exact .double _ trivial
  rw [toJson_eq]
  refine .record ?_
  simp only [slots, List.forall_mem_cons, Option.mem_some_iff, forall_eq']
  exact ⟨.string _ _, .bool _ _, hword _ h.index_lt, hwords _ h.rank_lt, hwords _ h.layer_lt,
    hposition, Json.legible_ofTexts _ _ _, fun data hdata => (h.isPayload data hdata).1, htexts _,
    htexts _, nofun⟩

/-- A node that was read fits, and its payload is not `null`. -/
theorem fits_of_decode? {document : Document} (hsound : document.Sound (Json.nestingLimit - 3 + 1))
    (h : decode? document = some node) : node.Fits ∧ node.withoutNull = node := by
  unfold decode? at h
  obtain ⟨parts, hparts, h⟩ := Option.bind_eq_some_iff.1 h
  split at h
  · rename_i id waypoint index rank layer position parentIds data sourceId targetId
    simp only [Option.bind_eq_bind, Option.bind_eq_some_iff, Option.some.injEq] at h
    obtain ⟨_, -, _, -, index', hindex, rank', hrank, layer', hlayer, _, -, _, -, data', hdata, _, -,
      _, -, rfl⟩ := h
    have hword : ∀ {part : Option Document} {found : Option Nat},
        Document.nullable Document.natural64? part = some found → ∀ n ∈ found, n < UInt64.size := by
      intro part found hfound n hn
      obtain ⟨_, -, -, hread⟩ := Document.exists_of_nullable hfound hn
      exact Document.lt_of_natural? (by decide) hread
    have hpayload : ∀ value ∈ data', value.IsPayload ∧ value ≠ .null := by
      intro value hvalue
      obtain ⟨part, rfl, hnull, hread⟩ := Document.exists_of_nullable hdata hvalue
      have hpart : part.Sound (Json.nestingLimit - 3) := hsound.of_mem_allFields? hparts (by simp)
      refine ⟨hpart.value? hread, ?_⟩
      rintro rfl
      exact hnull (Document.eq_null_of_value? hread)
    refine ⟨⟨?_, hword hrank, hword hlayer, fun value hvalue => (hpayload value hvalue).1⟩, ?_⟩
    · obtain ⟨_, -, hread⟩ := Document.exists_of_required hindex
      exact Document.lt_of_natural? (by decide) hread
    · rw [withoutNull_eq_self_iff]
      rintro heq
      exact (hpayload .null heq).2 rfl
  · exact absurd h nofun

end SnapshotNode

/-! ## Snapshots -/

namespace Snapshot

variable {snapshot : Snapshot}

/-- The parts of a snapshot by their names. -/
def slots (snapshot : Snapshot) : List (String × Option Json) :=
  [("version", some (.string snapshot.version)),
    ("nodes", some (.array (snapshot.nodes.map SnapshotNode.toJson))),
    ("groups", some (.array (snapshot.layers.map Json.ofTexts))),
    ("ranked", some (.ofTexts snapshot.ranking)),
    ("edges", some (.array (snapshot.edges.map SnapshotEdge.toJson))),
    ("matrix", snapshot.matrix.map DependencyMatrix.toJson)]

theorem toJson_eq (snapshot : Snapshot) :
    snapshot.toJson = .object (slotMembers snapshot.slots) := by
  simp only [toJson, slots, slotMembers, List.flatMap_cons, List.flatMap_nil, optional_map,
    List.append_nil]
  rfl

theorem decode?_toJson (h : snapshot.Fits) :
    decode? snapshot.toJson.document = some snapshot.withoutNulls := by
  have hnodes : Document.list? SnapshotNode.decode?
      (Json.array (snapshot.nodes.map SnapshotNode.toJson)).document =
        some (snapshot.nodes.map SnapshotNode.withoutNull) :=
    Document.list?_map fun node hnode => SnapshotNode.decode?_toJson (h.nodes node hnode)
  have hlayers : Document.list? (Document.list? Document.text?)
      (Json.array (snapshot.layers.map Json.ofTexts)).document = some snapshot.layers :=
    Document.list?_map_self fun layer _ => Document.list?_ofTexts layer
  have hedges : Document.list? SnapshotEdge.decode?
      (Json.array (snapshot.edges.map SnapshotEdge.toJson)).document = some snapshot.edges :=
    Document.list?_map_self fun edge _ => edge.decode?_toJson
  have hmatrix : Document.nullable DependencyMatrix.decode?
      ((snapshot.matrix.map DependencyMatrix.toJson).map Json.document) = some snapshot.matrix :=
    Document.nullable_map fun matrix hmatrix =>
      ⟨nofun, DependencyMatrix.decode?_toJson (h.cells matrix hmatrix)⟩
  have hfields : snapshot.toJson.document.allFields? fieldNames =
      some (snapshot.slots.map fun slot => slot.2.map Json.document) := by
    have hnames : (snapshot.slots.map Prod.fst).Nodup := show fieldNames.Nodup by decide
    rw [toJson_eq]
    exact (Document.fields?_record hnames).2
  unfold decode?
  rw [hfields]
  simp only [slots, List.map_cons, List.map_nil, Option.map_some, Option.bind_eq_bind,
    Option.bind_some, Document.required, hnodes, hlayers, hedges, hmatrix, Document.list?_ofTexts]
  rfl

/-- A snapshot that fits is legible. -/
theorem legible_toJson (h : snapshot.Fits) :
    Legible (fun _ => True) Json.nestingLimit snapshot.toJson := by
  have hnodes : Legible (fun _ => True) (Json.nestingLimit - 1)
      (.array (snapshot.nodes.map SnapshotNode.toJson)) := by
    refine .array fun item hitem => ?_
    obtain ⟨node, hnode, rfl⟩ := List.mem_map.1 hitem
    exact SnapshotNode.legible_toJson (h.nodes node hnode)
  have hlayers : Legible (fun _ => True) (Json.nestingLimit - 1)
      (.array (snapshot.layers.map Json.ofTexts)) := by
    refine .array fun item hitem => ?_
    obtain ⟨layer, -, rfl⟩ := List.mem_map.1 hitem
    exact Json.legible_ofTexts _ _ _
  have hedges : Legible (fun _ => True) (Json.nestingLimit - 1)
      (.array (snapshot.edges.map SnapshotEdge.toJson)) := by
    refine .array fun item hitem => ?_
    obtain ⟨edge, -, rfl⟩ := List.mem_map.1 hitem
    refine .object (List.forall_mem_cons.2 ⟨?_, List.forall_mem_singleton.2 ?_⟩) <;>
      exact .string _ _
  have hmatrix : ∀ value ∈ snapshot.matrix.map DependencyMatrix.toJson,
      Legible (fun _ => True) (Json.nestingLimit - 1) value := by
    intro value hvalue
    obtain ⟨matrix, hmatrix, rfl⟩ := Option.map_eq_some_iff.1 hvalue
    refine .object (List.forall_mem_cons.2 ⟨.string _ _, List.forall_mem_singleton.2 ?_⟩)
    refine .array fun item hitem => ?_
    obtain ⟨row, hrow, rfl⟩ := List.mem_map.1 hitem
    refine .array fun cell hcell => ?_
    obtain ⟨n, hn, rfl⟩ := List.mem_map.1 hcell
    exact .integer _ (Json.isWord_of_lt ((h.cells matrix hmatrix row hrow n hn).trans (by decide)))
  rw [toJson_eq]
  refine .record ?_
  simp only [slots, List.forall_mem_cons, Option.mem_some_iff, forall_eq']
  exact ⟨.string _ _, hnodes, hlayers, Json.legible_ofTexts _ _ _, hedges, hmatrix, nofun⟩

/-- The texts of a snapshot that fits are read as the snapshot without the payloads that are `null`. -/
theorem read?_texts (h : snapshot.Fits) (hdoubles : ∀ x ∈ snapshot.toJson.doubles, ReadsBack x) :
    read? snapshot.compactText = some snapshot.withoutNulls ∧
      read? snapshot.indentedText = some snapshot.withoutNulls := by
  obtain ⟨hcompact, hindented⟩ := Document.read?_texts ((legible_toJson h).of_doubles hdoubles)
  constructor
  · rw [read?, compactText, hcompact]
    exact decode?_toJson h
  · rw [read?, indentedText, hindented]
    exact decode?_toJson h

/-- A snapshot that was read fits, and no payload of it is `null`. -/
theorem fits_of_read? {text : String} (h : read? text = some snapshot) :
    snapshot.Fits ∧ snapshot.withoutNulls = snapshot := by
  obtain ⟨document, hdocument, h⟩ := Option.bind_eq_some_iff.1 h
  have hsound : document.Sound (Json.nestingLimit - 1 + 1) := Document.sound_read? hdocument
  unfold decode? at h
  obtain ⟨parts, hparts, h⟩ := Option.bind_eq_some_iff.1 h
  split at h
  · rename_i version nodes layers ranking edges matrix
    simp only [Option.bind_eq_bind, Option.bind_eq_some_iff, Option.some.injEq] at h
    obtain ⟨_, -, nodes', hnodes, _, -, _, -, _, -, matrix', hmatrix, rfl⟩ := h
    have hread : ∀ node ∈ nodes', node.Fits ∧ node.withoutNull = node := by
      intro node hnode
      obtain ⟨part, rfl, hlist⟩ := Document.exists_of_required hnodes
      have hpart : part.Sound (Json.nestingLimit - 1) := hsound.of_mem_allFields? hparts (by simp)
      obtain ⟨items, rfl, item, hitem, hnode⟩ := Document.exists_of_mem_list? hlist hnode
      exact SnapshotNode.fits_of_decode? (Document.Sound.of_array hpart item hitem) hnode
    refine ⟨⟨fun node hnode => (hread node hnode).1, fun matrix hmatrix' row hrow cell hcell => ?_⟩, ?_⟩
    · obtain ⟨part, -, -, hread⟩ := Document.exists_of_nullable hmatrix hmatrix'
      exact DependencyMatrix.cell_lt_of_decode? hread hrow hcell
    · rw [withoutNulls_eq_self_iff]
      intro node hnode
      exact node.withoutNull_eq_self_iff.1 (hread node hnode).2
  · exact absurd h nofun

/-- **Rereading.**  A snapshot that was read from any text is read from its own texts again. -/
theorem read?_texts_of_read? {text : String} (h : read? text = some snapshot)
    (hdoubles : ∀ x ∈ snapshot.toJson.doubles, ReadsBack x) :
    read? snapshot.compactText = some snapshot ∧ read? snapshot.indentedText = some snapshot := by
  obtain ⟨hfits, hnulls⟩ := fits_of_read? h
  have hread := read?_texts hfits hdoubles
  rwa [hnulls] at hread

/-- A text with records as arrays, parts that are null, an integer for a coordinate, an unknown name, a
name that is repeated in a payload, an escape and needless blanks. -/
def loose : String :=
  "[\"1\", [[\"a\", false, 0, null, 0, [1, 2.5], [], \x7b\"b\": [-2, 1.5e3, \"\\u00e9\\n\"], \"a\": 1,
    \"a\": \x7b\x7d\x7d, null, null]], [[\"a\"]], [], [\x7b\"to\": \"a\", \"more\": 0, \"from\": \"b\"\x7d],
    [\"insertion\", [[0]]] ]"

/-- The snapshot of that text. -/
def tidy : Snapshot where
  version := "1"
  nodes :=
    [{ id := "a", isWaypoint := false, index := 0, rank := none, layer := some 0,
       position := ⟨1, 2.5⟩, parentIds := [],
       data := some (.object
        [("a", .object []), ("b", .array [.integer (-2), .double 1500, .string "\u00e9\n"])]),
       sourceId := none, targetId := none }]
  layers := [["a"]]
  ranking := []
  edges := [⟨"b", "a"⟩]
  matrix := some ⟨.insertion, [[0]]⟩

set_option maxRecDepth 2000 in
theorem read?_loose : read? loose = some tidy := by
  -- the characters are handed over as such, since decoding them from bytes takes long
  have hchars : loose.toList = _ := String.toList_ofList
  rw [read?, Document.read?, hchars]
  decide +kernel

theorem read?_texts_tidy :
    read? loose = some tidy ∧ (∀ x ∈ tidy.toJson.doubles, ReadsBack x) ∧
      read? tidy.compactText = some tidy ∧ read? tidy.indentedText = some tidy := by
  have hdoubles : ∀ x ∈ tidy.toJson.doubles, ReadsBack x := by decide +kernel
  exact ⟨read?_loose, hdoubles, read?_texts_of_read? read?_loose hdoubles⟩

end Snapshot

end JobGraph
