import JobGraph.Proofs.Graph.Coherence
import JobGraph.Proofs.Graph.Records
import JobGraph.Proofs.Graph.Renumbering

/-!
# The order of the input

Two lists of records that tell the same dependencies, `SameDependencies`, may have them in another
order, and each record its parents.  The graphs built from them differ in the order of their nodes
only, `SameDependencies.exists_shuffled`; so they are laid out alike, or neither of them is.

What a layering says of its nodes it says by their ids, and of distinct ids each names one node.
-/

namespace JobGraph

/-! ## Lists in another order -/

/-- A permutation that leaves the first place alone and acts on the places behind it. -/
def keepFirst (σ : Equiv.Perm ℕ) : Equiv.Perm ℕ where
  toFun
    | 0 => 0
    | place + 1 => σ place + 1
  invFun
    | 0 => 0
    | place + 1 => σ.symm place + 1
  left_inv place := by cases place <;> simp
  right_inv place := by cases place <;> simp

/-- The places of a list can be sent to those of the same list in another order. -/
theorem exists_perm_getElem? {β : Type} {list list' : List β} (h : list.Perm list') :
    ∃ σ : Equiv.Perm ℕ, ∀ place, list'[σ place]? = list[place]? := by
  induction h with
  | nil => exact ⟨.refl ℕ, fun _ => rfl⟩
  | cons first _ ih =>
      obtain ⟨σ, hσ⟩ := ih
      refine ⟨keepFirst σ, fun place => ?_⟩
      cases place with
      | zero => rfl
      | succ place => exact hσ place
  | swap first second rest =>
      refine ⟨Equiv.swap 0 1, fun place => ?_⟩
      match place with
      | 0 => rfl
      | 1 => rfl
      | place + 2 => rw [Equiv.swap_apply_of_ne_of_ne (by omega) (by omega)]; rfl
  | trans _ _ ih ih' =>
      obtain ⟨σ, hσ⟩ := ih
      obtain ⟨σ', hσ'⟩ := ih'
      exact ⟨σ.trans σ', fun place => (hσ' (σ place)).trans (hσ place)⟩

/-- Lists that are related element by element are so at every place. -/
theorem getElem?_of_forall₂ {β γ : Type} {R : β → γ → Prop} {list : List β} {list' : List γ}
    (h : List.Forall₂ R list list') (place : Nat) :
    list[place]? = none ∧ list'[place]? = none ∨
      ∃ first second, list[place]? = some first ∧ list'[place]? = some second ∧ R first second := by
  induction h generalizing place with
  | nil => exact .inl ⟨rfl, rfl⟩
  | cons hfirst _ ih =>
      cases place with
      | zero => exact .inr ⟨_, _, rfl, rfl, hfirst⟩
      | succ place => exact ih place

namespace Graph

variable {α : Type} {g g' : Graph α} {id : α → String} {parentIds : α → List String} {records records' : List α}

/-- The lists name the same dependencies: one is the other in another order, and so are the parents
of each record. -/
structure SameDependencies (id : α → String) (parentIds : α → List String)
    (records records' : List α) : Prop where
  nodup : (records.map id).Nodup
  exists_reordered : ∃ reordered, records.Perm reordered ∧
    List.Forall₂ (fun record record' => id record = id record' ∧
      (parentIds record).Perm (parentIds record')) reordered records'

theorem SameDependencies.nodup' (h : SameDependencies id parentIds records records') :
    (records'.map id).Nodup := by
  obtain ⟨reordered, hperm, hrelated⟩ := h.exists_reordered
  have hids : List.Forall₂ (fun name name' => name = name') (reordered.map id) (records'.map id) := by
    rw [List.forall₂_map_left_iff, List.forall₂_map_right_iff]
    exact hrelated.imp fun _ _ hsame => hsame.1
  rw [List.forall₂_eq_eq_eq] at hids
  rw [← hids]
  exact (hperm.map id).nodup_iff.1 h.nodup

/-- Records at places that belong together have one id, and the same parents. -/
theorem SameDependencies.exists_perm (h : SameDependencies id parentIds records records') :
    ∃ σ : Equiv.Perm ℕ, ∀ key, records[key]? = none ∧ records'[σ key]? = none ∨
      ∃ record record', records[key]? = some record ∧ records'[σ key]? = some record' ∧
        id record = id record' ∧ (parentIds record).Perm (parentIds record') := by
  obtain ⟨reordered, hperm, hrelated⟩ := h.exists_reordered
  obtain ⟨σ, hσ⟩ := exists_perm_getElem? hperm
  refine ⟨σ, fun key => ?_⟩
  rw [← hσ key]
  exact getElem?_of_forall₂ hrelated (σ key)

/-! ## Graphs of distinct records -/

theorem find?_ofRecords_iff (hnodup : (records.map id).Nodup) (name : String) (key : NodeKey) :
    (ofRecords id parentIds records).find? name = some key ↔
      ∃ record, records[key]? = some record ∧ id record = name := by
  rw [(ofRecords_spec id parentIds records).1.find?_iff, LastAt.iff_of_nodup hnodup,
    List.getElem?_map, Option.map_eq_some_iff]

/-- The nodes have different ids, by which they are found. -/
def NamedApart (g : Graph α) : Prop :=
  ∀ name key, g.find? name = some key ↔ key < g.nodes.size ∧ g.idOf key = name

theorem idOf_ofRecords (hnodup : (records.map id).Nodup) {key : NodeKey} {record : α}
    (hrecord : records[key]? = some record) :
    (ofRecords id parentIds records).idOf key = id record := by
  have hcatalogued : Catalogued (ofRecords id parentIds records) :=
    Catalogued.invariant.ofRecords id parentIds records
  have hid := hcatalogued.id?_of_find? _ _
    ((find?_ofRecords_iff hnodup (id record) key).2 ⟨record, hrecord, rfl⟩)
  rw [id?_eq_some_idOf (lt_of_isSome_id? (Option.isSome_of_eq_some hid)), Option.some.injEq] at hid
  exact hid

theorem namedApart_ofRecords (hnodup : (records.map id).Nodup) :
    NamedApart (ofRecords id parentIds records) := by
  intro name key
  rw [find?_ofRecords_iff hnodup, (ofRecords_spec id parentIds records).1.size_eq]
  constructor
  · rintro ⟨record, hrecord, rfl⟩
    exact ⟨(List.getElem?_eq_some_iff.1 hrecord).1, idOf_ofRecords hnodup hrecord⟩
  · rintro ⟨hlt, rfl⟩
    have hrecord := List.getElem?_eq_getElem hlt
    exact ⟨_, hrecord, (idOf_ofRecords hnodup hrecord).symm⟩

theorem node?_ofRecords_of_none {key : NodeKey} (hnone : records[key]? = none) :
    (ofRecords id parentIds records).node? key = none := by
  rw [node?_eq_none_iff, (ofRecords_spec id parentIds records).1.size_eq]
  exact List.getElem?_eq_none_iff.1 hnone

/-- **Input order.**  Lists of the same dependencies give graphs that differ in the order of their
nodes. -/
theorem SameDependencies.exists_shuffled (h : SameDependencies id parentIds records records') :
    ∃ σ, Shuffled σ (ofRecords id parentIds records) (ofRecords id parentIds records') := by
  obtain ⟨σ, hσ⟩ := h.exists_perm
  have hspec := ofRecords_spec id parentIds records
  have hspec' := ofRecords_spec id parentIds records'
  have hfind : ∀ name, (ofRecords id parentIds records').find? name =
      ((ofRecords id parentIds records).find? name).map σ := by
    intro name
    refine Option.ext fun key => ?_
    obtain ⟨key, rfl⟩ := σ.surjective key
    rw [Option.map_eq_some_iff, find?_ofRecords_iff h.nodup']
    simp only [find?_ofRecords_iff h.nodup, σ.injective.eq_iff, exists_eq_right]
    rcases hσ key with ⟨hnone, hnone'⟩ | ⟨record, record', hrecord, hrecord', hid, -⟩
    · simp [hnone, hnone']
    · simp [hrecord, hrecord', hid]
  refine ⟨σ, ⟨?_, ?_, hfind, ?_⟩, (consistent_ofRecords id parentIds records).toLinked,
    (consistent_ofRecords id parentIds records').toLinked, hspec.1.routed_eq, hspec'.1.routed_eq⟩
  · intro key
    rw [hspec.1.size_eq, hspec'.1.size_eq, ← not_iff_not, not_lt, not_lt,
      ← List.getElem?_eq_none_iff, ← List.getElem?_eq_none_iff]
    rcases hσ key with ⟨hnone, hnone'⟩ | ⟨record, record', hrecord, hrecord', -⟩
    · simp [hnone, hnone']
    · simp [hrecord, hrecord']
  · intro key
    rcases hσ key with ⟨hnone, hnone'⟩ | ⟨record, record', hrecord, hrecord', hid, -⟩
    · rw [idOf, idOf, node?_ofRecords_of_none hnone, node?_ofRecords_of_none hnone']
    · rw [idOf_ofRecords h.nodup hrecord, idOf_ofRecords h.nodup' hrecord', hid]
  · intro key
    rcases hσ key with ⟨hnone, hnone'⟩ | ⟨record, record', hrecord, hrecord', -, hparents⟩
    · rw [parentsOf, parentsOf, node?_ofRecords_of_none hnone, node?_ofRecords_of_none hnone']
      exact .refl _
    · rw [hspec.2 key record hrecord, hspec'.2 (σ key) record' hrecord', List.map_filterMap]
      refine (hparents.symm.filterMap _).trans (.of_eq ?_)
      exact List.filterMap_congr fun name _ => hfind name

/-! ## Layerings -/

/-- Two layerings of nodes with the same ids that agree, and then are routed alike. -/
structure SameLayers (ids : List String) (g g' : Graph α) (report report' : LayeringReport) : Prop
    where
  /-- Each id names a node of either graph, and both are on one layer or on none. -/
  layerOf_eq : ∀ name ∈ ids, ∃ key key', g.find? name = some key ∧ g'.find? name = some key' ∧
    g'.layerOf key' = g.layerOf key
  layerCount_eq : report'.layerCount = report.layerCount
  moved_eq : report'.moved = report.moved
  excluded_perm : report'.excluded.Perm report.excluded
  /-- Left out are the ids without a layer. -/
  mem_excluded_iff : ∀ name key, g.find? name = some key →
    (name ∈ report.excluded ↔ g.layerOf key = none)
  routed : ∃ count, g.routeLongEdges.2 = .ok count ∧ g'.routeLongEdges.2 = .ok count ∧
    g.routeLongEdges.1.waypointKeys.length = count ∧ g'.routeLongEdges.1.waypointKeys.length = count

/-- Two layerings that both fail and name the same ids, or both go through and agree. -/
inductive SameOutcome (ids : List String) :
    Graph α × Except GraphError LayeringReport → Graph α × Except GraphError LayeringReport → Prop
  | failed {g g' : Graph α} {names names' : List String} (h : names'.Perm names) :
      SameOutcome ids (g, .error (.cycle names)) (g', .error (.cycle names'))
  | laidOut {g g' : Graph α} {report report' : LayeringReport}
      (h : SameLayers ids g g' report report') : SameOutcome ids (g, .ok report) (g', .ok report')

/-- Left out are the nodes that are on no layer. -/
theorem mem_unplaced_levelled_iff_layerOf (hlinked : Linked g) (hunrouted : g.routed = false)
    {key : NodeKey} (hkey : key < g.nodes.size) :
    key ∈ g.levelled.unplaced ↔ g.compacted.layerOf key = none := by
  rw [mem_unplaced_levelled_iff hlinked hunrouted, hlinked.mem_realKeys_iff hunrouted,
    ← Option.not_isSome_iff_eq_none, isSome_layerOf_compacted_iff hlinked hunrouted,
    mem_ranking_compacted_iff hlinked hunrouted, exists_hasDepth_iff]
  tauto

theorem consistent_sorted (h : Consistent g) (hunrouted : g.routed = false) :
    Consistent { g.compacted with sorted := true } := by
  have hassigned := h.assignLayers .lenient
  rwa [assignLayers_of_unrouted hunrouted, if_neg (by simp)] at hassigned

theorem routed_compacted (hlinked : Linked g) (hunrouted : g.routed = false) :
    g.compacted.routed = false := by
  have hrouted : g.compacted.clearLayout.routed = g.clearLayout.routed := by
    rw [clearLayout_compacted hlinked hunrouted]
  exact hrouted.trans hunrouted

namespace Shuffled

variable {σ : Equiv.Perm NodeKey} {ids : List String}

/-- Graphs whose nodes are in another order are laid out alike. -/
theorem sameLayers (h : Shuffled σ g g') (hconsistent : Consistent g) (hconsistent' : Consistent g')
    (hnamed : NamedApart g) (hids : ∀ name ∈ ids, ∃ key, g.find? name = some key) :
    SameLayers ids { g.compacted with sorted := true } { g'.compacted with sorted := true }
      ⟨g.compacted.layers.length, g.levelled.compact.2, g.levelled.unplaced.map g.idOf⟩
      ⟨g'.compacted.layers.length, g'.levelled.compact.2, g'.levelled.unplaced.map g'.idOf⟩ := by
  have hclear := clearLayout_compacted h.linked h.unrouted
  have hclear' := clearLayout_compacted h.linked' h.unrouted'
  have hfind : g.compacted.find? = g.find? := find?_of_clearLayout_eq hclear
  have hfind' : g'.compacted.find? = g'.find? := find?_of_clearLayout_eq hclear'
  refine ⟨?_, h.layerCount_eq, h.moved_eq, h.perm_map_idOf h.perm_unplaced, ?_, ?_⟩
  · intro name hname
    obtain ⟨key, hkey⟩ := hids name hname
    refine ⟨key, σ key, ?_, ?_, h.layerOf_eq key⟩
    · exact (congrFun hfind name).trans hkey
    · refine (congrFun hfind' name).trans ?_
      rw [h.find?_eq, hkey, Option.map_some]
  · intro name key hkey
    obtain ⟨hlt, hid⟩ := (hnamed name key).1 ((congrFun hfind name).symm.trans hkey)
    refine Iff.trans ?_ (mem_unplaced_levelled_iff_layerOf h.linked h.unrouted hlt)
    constructor
    · intro hname
      obtain ⟨other, hother, hsame⟩ := List.mem_map.1 hname
      have hreal := ((mem_unplaced_levelled_iff h.linked h.unrouted).1 hother).1
      -- the name is that of one node only
      have hfound := (hnamed name other).2 ⟨h.linked.lt_of_mem_realKeys hreal, hsame⟩
      rw [(hnamed name key).2 ⟨hlt, hid⟩, Option.some.injEq] at hfound
      rwa [hfound]
    · exact fun hleft => List.mem_map.2 ⟨key, hleft, hid⟩
  · obtain ⟨hcount, hwaypoints⟩ := routeLongEdges_bends
      (consistent_sorted hconsistent h.unrouted) rfl (routed_compacted h.linked h.unrouted)
    obtain ⟨hcount', hwaypoints'⟩ := routeLongEdges_bends
      (consistent_sorted hconsistent' h.unrouted') rfl (routed_compacted h.linked' h.unrouted')
    have hbends : g'.compacted.bends = g.compacted.bends :=
      (h.of_clearLayout_eq hclear hclear').bends_eq h.layerOf_eq
    exact ⟨g.compacted.bends, hcount, hcount'.trans (congrArg Except.ok hbends), hwaypoints,
      hwaypoints'.trans hbends⟩

/-- Graphs whose nodes are in another order are both laid out, or neither of them is. -/
theorem sameOutcome (h : Shuffled σ g g') (hconsistent : Consistent g) (hconsistent' : Consistent g')
    (hnamed : NamedApart g) (hids : ∀ name ∈ ids, ∃ key, g.find? name = some key)
    (policy : CyclePolicy) :
    SameOutcome ids (g.assignLayers policy) (g'.assignLayers policy) := by
  rw [assignLayers_of_unrouted h.unrouted, assignLayers_of_unrouted h.unrouted']
  by_cases hfails : policy = .strict ∧ g.levelled.unplaced ≠ []
  · rw [if_pos hfails, if_pos ⟨hfails.1, h.unplaced_eq_nil_iff.not.2 hfails.2⟩]
    exact .failed (h.perm_cycleIds hfails.2)
  · rw [if_neg hfails, if_neg fun hfails' =>
      hfails ⟨hfails'.1, h.unplaced_eq_nil_iff.not.1 hfails'.2⟩]
    exact .laidOut (h.sameLayers hconsistent hconsistent' hnamed hids)

end Shuffled

/-- **Input order.**  From two lists of the same dependencies, with distinct ids, a layering makes
the same of every id, and a routing the same number of waypoints. -/
theorem SameDependencies.sameOutcome_assignLayers
    (h : SameDependencies id parentIds records records') (policy : CyclePolicy) :
    SameOutcome (records.map id) ((ofRecords id parentIds records).assignLayers policy)
      ((ofRecords id parentIds records').assignLayers policy) := by
  obtain ⟨σ, hshuffled⟩ := h.exists_shuffled
  refine hshuffled.sameOutcome (consistent_ofRecords id parentIds records)
    (consistent_ofRecords id parentIds records') (namedApart_ofRecords h.nodup) ?_ policy
  intro name hname
  obtain ⟨record, hrecord, hid⟩ := List.mem_map.1 hname
  obtain ⟨key, hkey⟩ := List.mem_iff_getElem?.1 hrecord
  exact ⟨key, (find?_ofRecords_iff h.nodup name key).2 ⟨record, hkey, hid⟩⟩

/-- Steps and what each needs: a long edge twice, a step to be moved and a cycle. -/
def recipe : List (String × List String) :=
  [("dig", []), ("sow", ["dig"]), ("water", ["sow"]), ("reap", ["water", "dig", "dig", "sharpen"]),
    ("sharpen", []), ("hen", ["egg"]), ("egg", ["hen"]), ("boil", ["egg", "water"])]

/-- The same steps in another order. -/
def recipe' : List (String × List String) :=
  [("boil", ["water", "egg"]), ("egg", ["hen"]), ("sharpen", []), ("hen", ["egg"]),
    ("reap", ["dig", "sharpen", "dig", "water"]), ("water", ["sow"]), ("sow", ["dig"]), ("dig", [])]

theorem sameOutcome_recipe :
    SameDependencies Prod.fst Prod.snd recipe recipe' ∧
      (∀ policy, SameOutcome (recipe.map Prod.fst)
        ((ofRecords Prod.fst Prod.snd recipe).assignLayers policy)
        ((ofRecords Prod.fst Prod.snd recipe').assignLayers policy)) ∧
      ((ofRecords Prod.fst Prod.snd recipe).assignLayers .lenient).2 =
        .ok ⟨4, 1, ["hen", "egg", "boil"]⟩ ∧
      ((ofRecords Prod.fst Prod.snd recipe').assignLayers .lenient).2 =
        .ok ⟨4, 1, ["boil", "egg", "hen"]⟩ ∧
      ((ofRecords Prod.fst Prod.snd recipe).assignLayers .strict).2 =
        .error (.cycle ["hen", "egg"]) ∧
      ((ofRecords Prod.fst Prod.snd recipe').assignLayers .strict).2 =
        .error (.cycle ["egg", "hen"]) ∧
      ((ofRecords Prod.fst Prod.snd recipe).assignLayers .lenient).1.routeLongEdges.2 = .ok 4 := by
  have hsame : SameDependencies Prod.fst Prod.snd recipe recipe' := by
    refine ⟨by decide, [("boil", ["egg", "water"]), ("egg", ["hen"]), ("sharpen", []),
      ("hen", ["egg"]), ("reap", ["water", "dig", "dig", "sharpen"]), ("water", ["sow"]),
      ("sow", ["dig"]), ("dig", [])], by decide, ?_⟩
    exact .cons ⟨rfl, by decide⟩ <| .cons ⟨rfl, .refl _⟩ <| .cons ⟨rfl, .refl _⟩ <|
      .cons ⟨rfl, .refl _⟩ <| .cons ⟨rfl, by decide⟩ <| .cons ⟨rfl, .refl _⟩ <|
      .cons ⟨rfl, .refl _⟩ <| .cons ⟨rfl, .refl _⟩ .nil
  refine ⟨hsame, hsame.sameOutcome_assignLayers, ?_, ?_, ?_, ?_, ?_⟩ <;> decide +kernel

end Graph

end JobGraph
