import JobGraph.Proofs.Graph.Consistency

/-!
# Graphs of records

A graph that is built from records has a node for each of them, by its place in the list, and edges
to the nodes that the index of ids has for the ids of its parents.  Of several records with one id
the index has the last one, `LastAt`, so an id that no record has draws no edge.
-/

namespace JobGraph

/-- The last place of a name in a list. -/
def LastAt (names : List String) (name : String) (place : Nat) : Prop :=
  names[place]? = some name ∧ ∀ later, names[later]? = some name → later ≤ place

namespace LastAt

variable {names : List String} {name other : String} {place : Nat}

theorem mem (h : LastAt names name place) : name ∈ names :=
  List.mem_of_getElem? h.1

theorem lt_length (h : LastAt names name place) : place < names.length :=
  (List.getElem?_eq_some_iff.1 h.1).1

theorem unique {later : Nat} (h : LastAt names name place) (h' : LastAt names name later) :
    place = later :=
  le_antisymm (h'.2 _ h.1) (h.2 _ h'.1)

/-- One more name is the last one of its kind, and hides no other. -/
theorem concat_iff :
    LastAt (names ++ [other]) name place ↔
      if name = other then place = names.length else LastAt names name place := by
  have hlast : (names ++ [other])[names.length]? = some other := by simp
  split
  · rename_i heq
    rw [← heq] at hlast ⊢
    constructor
    · intro h
      have hlt := h.lt_length
      rw [List.length_append, List.length_singleton] at hlt
      exact le_antisymm (Nat.lt_succ_iff.1 hlt) (h.2 _ hlast)
    · rintro rfl
      refine ⟨hlast, fun later hlater => ?_⟩
      have hlt := (List.getElem?_eq_some_iff.1 hlater).1
      rw [List.length_append, List.length_singleton] at hlt
      exact Nat.lt_succ_iff.1 hlt
  · rename_i hne
    have hsame : ∀ place : Nat,
        (names ++ [other])[place]? = some name ↔ names[place]? = some name := by
      intro place
      rcases Nat.lt_trichotomy place names.length with hlt | heq | hgt
      · rw [List.getElem?_append_left hlt]
      · rw [heq, hlast, List.getElem?_eq_none le_rfl]
        simp [Ne.symm hne]
      · rw [List.getElem?_eq_none (by simpa using hgt), List.getElem?_eq_none hgt.le]
    rw [LastAt, LastAt]
    simp only [hsame]

/-- Every name in a list has a last place. -/
theorem exists_of_mem (h : name ∈ names) : ∃ place, LastAt names name place := by
  induction names using List.reverseRecOn with
  | nil => exact absurd h List.not_mem_nil
  | append_singleton names other ih =>
      simp only [concat_iff]
      split
      · exact ⟨_, rfl⟩
      · rename_i hne
        rw [List.mem_append, List.mem_singleton] at h
        exact ih (h.resolve_right hne)

/-- In a list of distinct names every place is a last one. -/
theorem iff_of_nodup (h : names.Nodup) : LastAt names name place ↔ names[place]? = some name := by
  refine ⟨And.left, fun hplace => ⟨hplace, fun later hlater => ?_⟩⟩
  obtain ⟨hlt, -⟩ := List.getElem?_eq_some_iff.1 hlater
  exact ((List.getElem?_inj hlt h).1 (hlater.trans hplace.symm)).le

end LastAt

namespace Graph

variable {α : Type} {g g' g'' : Graph α}

theorem data?_of_bareNode?_eq {key : NodeKey} (h : g'.bareNode? key = g.bareNode? key) :
    g'.data? key = g.data? key := by
  have hread : ∀ g : Graph α, (g.bareNode? key).bind Node.data? = g.data? key := by
    intro g
    rw [bareNode?, Option.bind_map]
    rfl
  rw [← hread, h, hread]

/-! ## Nodes -/

/-- The real nodes of a graph are those of a list of records, which it finds by their ids. -/
structure Lists (g : Graph α) (id : α → String) (records : List α) : Prop where
  size_eq : g.nodes.size = records.length
  realKeys_eq : g.realKeys = List.range records.length
  length_entries : g.idIndex.entries.length = records.length
  routed_eq : g.routed = false
  data?_eq : ∀ key, g.data? key = records[key]?
  find?_iff : ∀ name key, g.find? name = some key ↔ LastAt (records.map id) name key

namespace Lists

variable {id : α → String} {records : List α}

theorem empty (id : α → String) : Lists (Graph.empty : Graph α) id [] where
  size_eq := rfl
  realKeys_eq := rfl
  length_entries := rfl
  routed_eq := rfl
  data?_eq _ := rfl
  find?_iff name key := by simp [find?, Graph.empty, LastAt]

theorem addNode (h : Lists g id records) (record : α) :
    Lists (g.addNode (id record) record) id (records ++ [record]) where
  size_eq := by simp [Graph.addNode, h.size_eq]
  realKeys_eq := by
    rw [List.length_append, List.length_singleton, List.range_succ, ← h.realKeys_eq, ← h.size_eq]
    rfl
  length_entries := by simp [Graph.addNode, IdIndex.insert, h.length_entries]
  routed_eq := h.routed_eq
  data?_eq key := by
    have hnode : (g.addNode (id record) record).node? key =
        if key = g.nodes.size then some (Node.new (id record) (.real record) g.realKeys.length)
        else g.node? key := node?_of_push g rfl key
    rw [data?, hnode, h.size_eq]
    by_cases hkey : key = records.length
    · rw [if_pos hkey, hkey]
      simp [Node.data?, Node.new]
    · rw [if_neg hkey]
      refine (h.data?_eq key).trans ?_
      rcases Nat.lt_or_gt_of_ne hkey with hlt | hgt
      · rw [List.getElem?_append_left hlt]
      · rw [List.getElem?_eq_none hgt.le, List.getElem?_eq_none (by simpa using hgt)]
  find?_iff name key := by
    show (g.idIndex.insert (id record) g.nodes.size).get? name = some key ↔ _
    rw [IdIndex.get?_insert, List.map_append, List.map_singleton, LastAt.concat_iff,
      List.length_map, ← h.size_eq]
    split
    · rw [Option.some.injEq, eq_comm]
    · exact h.find?_iff name key

theorem lt_of_find? (h : Lists g id records) {name : String} {key : NodeKey}
    (hfind : g.find? name = some key) : key < g.nodes.size := by
  rw [h.size_eq, ← List.length_map (f := id)]
  exact ((h.find?_iff name key).1 hfind).lt_length

end Lists

theorem lists_foldl_addNode (id : α → String) (records : List α) :
    Lists (records.foldl (fun g record => g.addNode (id record) record) empty) id records := by
  induction records using List.reverseRecOn with
  | nil => exact .empty id
  | append_singleton records record ih =>
      rw [List.foldl_append]
      exact ih.addNode record

theorem parentsOf_foldl_addNode (id : α → String) (records : List α) :
    (records.foldl (fun g record => g.addNode (id record) record) empty).parentsOf = fun _ => [] := by
  refine List.foldlRecOn (motive := fun g : Graph α => g.parentsOf = fun _ => []) _ _ ?_ ?_
  · rfl
  · intro g hg record _
    rw [(g.reads_addNode (id record) record).1, hg]

/-! ## Edges -/

theorem idIndex_addEdge (g : Graph α) (dependent parent : NodeKey) :
    (g.addEdge dependent parent).idIndex = g.idIndex := by
  unfold addEdge
  split <;> rfl

/-- `g'` is `g` with other edges. -/
structure EdgesOnly (g g' : Graph α) : Prop where
  size_eq : g'.nodes.size = g.nodes.size
  bareNode?_eq : ∀ key, g'.bareNode? key = g.bareNode? key
  realKeys_eq : g'.realKeys = g.realKeys
  idIndex_eq : g'.idIndex = g.idIndex
  routed_eq : g'.routed = g.routed

namespace EdgesOnly

theorem refl (g : Graph α) : EdgesOnly g g :=
  ⟨rfl, fun _ => rfl, rfl, rfl, rfl⟩

theorem trans (h : EdgesOnly g g') (h' : EdgesOnly g' g'') : EdgesOnly g g'' :=
  ⟨h'.size_eq.trans h.size_eq, fun key => (h'.bareNode?_eq key).trans (h.bareNode?_eq key),
    h'.realKeys_eq.trans h.realKeys_eq, h'.idIndex_eq.trans h.idIndex_eq,
    h'.routed_eq.trans h.routed_eq⟩

theorem addEdge (g : Graph α) (dependent parent : NodeKey) :
    EdgesOnly g (g.addEdge dependent parent) where
  size_eq := g.nodes_size_addEdge dependent parent
  bareNode?_eq := g.bareNode?_addEdge dependent parent
  realKeys_eq := (g.fields_addEdge dependent parent).1
  idIndex_eq := g.idIndex_addEdge dependent parent
  routed_eq := (g.fields_addEdge dependent parent).2.2.1

theorem find?_eq (h : EdgesOnly g g') : g'.find? = g.find? := by
  funext id
  rw [find?, h.idIndex_eq, find?]

theorem lists (h : EdgesOnly g g') {id : α → String} {records : List α}
    (hlists : Lists g id records) : Lists g' id records where
  size_eq := h.size_eq.trans hlists.size_eq
  realKeys_eq := h.realKeys_eq.trans hlists.realKeys_eq
  length_entries := by rw [h.idIndex_eq, hlists.length_entries]
  routed_eq := h.routed_eq.trans hlists.routed_eq
  data?_eq key := (data?_of_bareNode?_eq (h.bareNode?_eq key)).trans (hlists.data?_eq key)
  find?_iff := by
    rw [h.find?_eq]
    exact hlists.find?_iff

end EdgesOnly

/-- Edges are added to the parents that are found, in their order. -/
theorem addEdgesTo_spec {dependent : NodeKey} (hdependent : dependent < g.nodes.size)
    (hfind : ∀ id key, g.find? id = some key → key < g.nodes.size) (parentIds : List String) :
    EdgesOnly g (g.addEdgesTo dependent parentIds) ∧
      ∀ key, (g.addEdgesTo dependent parentIds).parentsOf key =
        g.parentsOf key ++ if key = dependent then parentIds.filterMap g.find? else [] := by
  unfold addEdgesTo
  induction parentIds generalizing g with
  | nil => exact ⟨.refl g, fun key => by simp⟩
  | cons id rest ih =>
      rw [List.foldl_cons]
      cases hid : g.find? id with
      | none =>
          rw [List.filterMap_cons_none hid]
          exact ih hdependent hfind
      | some parent =>
          dsimp only
          have hstep := EdgesOnly.addEdge g dependent parent
          have hsize := hstep.size_eq
          obtain ⟨honly, hparents⟩ := ih (hsize ▸ hdependent) fun other key hkey =>
            hsize ▸ hfind other key (hstep.find?_eq ▸ hkey)
          refine ⟨hstep.trans honly, fun key => ?_⟩
          rw [hparents, hstep.find?_eq, parentsOf_addEdge g hdependent (hfind id parent hid),
            List.filterMap_cons_some hid]
          split <;> simp

/-- Records draw their edges one after the other. -/
theorem foldl_addEdgesTo_spec (parentIds : α → List String) (numbered : List (α × NodeKey))
    (hnumbered : ∀ entry ∈ numbered, entry.2 < g.nodes.size)
    (hfind : ∀ id key, g.find? id = some key → key < g.nodes.size) :
    EdgesOnly g
        (numbered.foldl (fun g entry => g.addEdgesTo entry.2 (parentIds entry.1)) g) ∧
      ∀ key, (numbered.foldl (fun g entry => g.addEdgesTo entry.2 (parentIds entry.1)) g).parentsOf
          key = g.parentsOf key ++ numbered.flatMap fun entry =>
            if key = entry.2 then (parentIds entry.1).filterMap g.find? else [] := by
  induction numbered generalizing g with
  | nil => exact ⟨.refl g, fun key => (List.append_nil _).symm⟩
  | cons entry rest ih =>
      obtain ⟨hentry, hrest⟩ := List.forall_mem_cons.1 hnumbered
      obtain ⟨hstep, hstepParents⟩ := addEdgesTo_spec hentry hfind (parentIds entry.1)
      have hsize := hstep.size_eq
      obtain ⟨honly, hparents⟩ := ih (fun other hother => hsize ▸ hrest other hother)
        fun id key hkey => hsize ▸ hfind id key (hstep.find?_eq ▸ hkey)
      refine ⟨hstep.trans honly, fun key => ?_⟩
      rw [List.foldl_cons, hparents, hstepParents, hstep.find?_eq, List.flatMap_cons,
        List.append_assoc]

/-- Of numbered entries, one has the number. -/
theorem flatMap_zipIdx_ite {β : Type} (records : List α) (f : α → List β) (key : Nat) :
    (records.zipIdx.flatMap fun entry => if key = entry.2 then f entry.1 else []) =
      records[key]?.elim [] f := by
  induction records using List.reverseRecOn with
  | nil => rfl
  | append_singleton records record ih =>
      rw [List.zipIdx_append, List.flatMap_append, ih, Nat.zero_add, List.zipIdx_singleton,
        List.flatMap_singleton]
      rcases Nat.lt_trichotomy key records.length with hlt | heq | hgt
      · rw [List.getElem?_append_left hlt, if_neg hlt.ne, List.append_nil]
      · rw [heq, if_pos rfl, List.getElem?_eq_none le_rfl]
        simp
      · rw [List.getElem?_eq_none hgt.le, List.getElem?_eq_none (by simpa using hgt),
          if_neg hgt.ne']
        rfl

/-- **Records.**  A graph of records has them as its nodes, and the edges of each lead to the nodes
found by the ids of its parents. -/
theorem ofRecords_spec (id : α → String) (parentIds : α → List String) (records : List α) :
    Lists (ofRecords id parentIds records) id records ∧
      ∀ key record, records[key]? = some record →
        (ofRecords id parentIds records).parentsOf key =
          (parentIds record).filterMap (ofRecords id parentIds records).find? := by
  have hbare := lists_foldl_addNode id records
  have hnumbered : ∀ entry ∈ records.zipIdx, entry.2 <
      (records.foldl (fun g record => g.addNode (id record) record) empty).nodes.size := by
    intro entry hentry
    rw [hbare.size_eq]
    exact (List.mem_zipIdx' hentry).1
  obtain ⟨honly, hparents⟩ := foldl_addEdgesTo_spec parentIds records.zipIdx hnumbered
    fun _ _ => hbare.lt_of_find?
  refine ⟨honly.lists hbare, fun key record hrecord => ?_⟩
  have hfind : (ofRecords id parentIds records).find? = _ := honly.find?_eq
  rw [hfind]
  refine (hparents key).trans ?_
  rw [parentsOf_foldl_addNode, List.nil_append]
  refine (flatMap_zipIdx_ite records (fun record => (parentIds record).filterMap _) key).trans ?_
  rw [hrecord]
  rfl

end Graph

end JobGraph
