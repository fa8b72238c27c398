import JobGraph.Proofs.Graph.Coherence

/-!
# Looking neighbours up by id

A lookup of a parent or a child by an id that succeeds yields a neighbour with that id.  It may fail
although there is one: when the last edge to a neighbour goes, its id is forgotten, and nobody asks
whether another neighbour has the same id.

* `Findable`: lookups of an id miss nothing.  Adding nodes and edges, layering and ordering keep it.
* `Unambiguous`: of the parents of a node one has the id at most, and so for its children.  Where an
  edge is removed from such a graph, lookups of the id still miss nothing.
* A routing removes edges and adds others.  The waypoints it adds have ids of their own, so that it
  keeps both.

An id that a single node has is unambiguous forever.
-/

namespace JobGraph.Graph

variable {α : Type} {g g' : Graph α} {id : String}

/-! ## Nothing is missed -/

/-- Lookups by the id succeed exactly where a neighbour has it. -/
def LookupsExact (g : Graph α) (id : String) : Prop :=
  ∀ key node, g.node? key = some node →
    ((node.parentById? id).isSome ↔ ∃ parent ∈ node.parents, g.id? parent = some id) ∧
      ((node.childById? id).isSome ↔ ∃ child ∈ node.children, g.id? child = some id)

/-- Where a node has a neighbour with the id, it finds one. -/
def Findable (g : Graph α) (id : String) : Prop :=
  ∀ direction key, (g.side direction key).Finds g.id? id

/-- No node has two parents, or two children, with the id. -/
def Unambiguous (g : Graph α) (id : String) : Prop :=
  ∀ direction key, (g.side direction key).Unambiguous g.id? id

theorem unambiguous_iff : Unambiguous g id ↔
    ∀ key ∈ g.keys, (g.side .parents key).Unambiguous g.id? id ∧
      (g.side .children key).Unambiguous g.id? id := by
  refine ⟨fun h key _ => ⟨h .parents key, h .children key⟩, fun h direction key => ?_⟩
  by_cases hkey : key < g.nodes.size
  · cases direction with
    | parents => exact (h key ((mem_keys g key).2 hkey)).1
    | children => exact (h key ((mem_keys g key).2 hkey)).2
  · rw [side, (g.node?_eq_none_iff key).2 (not_lt.1 hkey)]
    exact fun _ hfirst => absurd hfirst List.not_mem_nil

instance : Decidable (Unambiguous g id) :=
  decidable_of_iff _ unambiguous_iff.symm

/-- What is found is a neighbour with the id, so lookups that miss nothing are exact. -/
theorem Findable.lookupsExact (h : Findable g id) (hknown : NeighboursKnown g) :
    LookupsExact g id := by
  have hside : ∀ direction key, ((g.side direction key).index.get? id).isSome ↔
      ∃ neighbour ∈ (g.side direction key).keys, g.id? neighbour = some id := by
    intro direction key
    refine ⟨fun hfound => ?_, h direction key⟩
    obtain ⟨neighbour, hget⟩ := Option.isSome_iff_exists.1 hfound
    exact ⟨neighbour, (hknown.known direction key).of_get? id neighbour hget⟩
  intro key node hnode
  have hparents := hside .parents key
  have hchildren := hside .children key
  rw [side_of_node? hnode] at hparents hchildren
  exact ⟨hparents, hchildren⟩

theorem findable_empty (id : String) : Findable (empty : Graph α) id :=
  fun _ _ => Side.finds_empty _ id

/-! ## Single changes -/

/-- A new node gives its id to nobody who was a neighbour. -/
private theorem NeighboursKnown.id?_eq (h : NeighboursKnown g) {name : String} {waypoint : Bool}
    (hnode : Enlarged g g' name waypoint) {direction : Direction} {key : NodeKey} :
    ∀ neighbour ∈ (g.side direction key).keys, g'.id? neighbour = g.id? neighbour := by
  intro neighbour hneighbour
  have hlt := lt_of_isSome_id? ((h.known direction key).isSome_id? neighbour hneighbour)
  rw [hnode.id?_eq, if_neg (Nat.ne_of_lt hlt)]

namespace Findable

theorem enlarged (h : Findable g id) (hknown : NeighboursKnown g) {name : String} {waypoint : Bool}
    (hnode : Enlarged g g' name waypoint) : Findable g' id := by
  intro direction key
  rw [hnode.side_eq]
  exact (h direction key).congr (hknown.id?_eq hnode)

theorem alike (h : Findable g id) (halike : Alike g g') : Findable g' id := by
  intro direction key
  rw [halike.side_eq, halike.id?_eq]
  exact h direction key

theorem addEdge (h : Findable g id) (dependent parent : NodeKey) :
    Findable (g.addEdge dependent parent) id := by
  by_cases hends : dependent < g.nodes.size ∧ parent < g.nodes.size
  · intro direction key
    rw [id?_addEdge, side_addEdge ⟨dependent, parent⟩ hends.1 hends.2]
    split
    · refine (h direction key).add _ (id?_eq_some_idOf ?_)
      cases direction
      · exact hends.2
      · exact hends.1
    · exact h direction key
  · rwa [g.addEdge_of_not_lt hends]

theorem removeEdge (h : Findable g id) (hknown : NeighboursKnown g) (hone : Unambiguous g id)
    (dependent parent : NodeKey) : Findable (g.removeEdge dependent parent) id := by
  by_cases hedge : parent ∈ g.parentsOf dependent
  · intro direction key
    rw [id?_removeEdge, side_removeEdge ⟨dependent, parent⟩ hedge]
    split
    · rename_i hkey
      rw [hkey]
      exact (h direction _).drop (hone direction _)
        (hknown.neighbour_mem ⟨dependent, parent⟩ hedge direction)
        (hknown.id?_neighbour ⟨dependent, parent⟩ hedge direction)
    · exact h direction key
  · rwa [g.removeEdge_of_not_mem hedge]

end Findable

namespace Unambiguous

theorem enlarged (h : Unambiguous g id) (hknown : NeighboursKnown g) {name : String}
    {waypoint : Bool} (hnode : Enlarged g g' name waypoint) : Unambiguous g' id := by
  intro direction key
  rw [hnode.side_eq]
  exact (h direction key).congr (hknown.id?_eq hnode)

theorem alike (h : Unambiguous g id) (halike : Alike g g') : Unambiguous g' id := by
  intro direction key
  rw [halike.side_eq, halike.id?_eq]
  exact h direction key

/-- An edge may be added if either end has no such neighbours yet or gets one with an own id. -/
theorem addEdge (h : Unambiguous g id) (edge : Edge)
    (hown : ∀ direction, (g.side direction (edge.holder direction)).keys = [] ∨
      ∀ other, g.id? other = g.id? (edge.neighbour direction) → other = edge.neighbour direction) :
    Unambiguous (g.addEdge edge.dependent edge.parent) id := by
  by_cases hends : edge.dependent < g.nodes.size ∧ edge.parent < g.nodes.size
  · intro direction key
    rw [id?_addEdge, side_addEdge edge hends.1 hends.2]
    split
    · rename_i hkey
      rw [hkey]
      exact (h direction _).add _ (hown direction)
    · exact h direction key
  · rwa [g.addEdge_of_not_lt hends]

theorem removeEdge (h : Unambiguous g id) (dependent parent : NodeKey) :
    Unambiguous (g.removeEdge dependent parent) id := by
  by_cases hedge : parent ∈ g.parentsOf dependent
  · intro direction key
    rw [id?_removeEdge, side_removeEdge ⟨dependent, parent⟩ hedge]
    split
    · exact (h direction key).drop _ _
    · exact h direction key
  · rwa [g.removeEdge_of_not_mem hedge]

end Unambiguous

/-! ## Routing -/

/-- What a routing keeps: lookups of the id miss nothing, and no neighbours share it. -/
structure Findable.Safe (g : Graph α) (id : String) : Prop where
  catalogued : Catalogued g
  known : NeighboursKnown g
  findable : Findable g id
  unambiguous : Unambiguous g id

/-- The end of a chain that hangs loose: a node without parents, whose id no other node has. -/
structure LooseEnd (g : Graph α) (key : NodeKey) : Prop where
  lt_size : key < g.nodes.size
  parents_eq : (g.side .parents key).keys = []
  eq_of_id?_eq : ∀ other, g.id? other = g.id? key → other = key

namespace Findable.Safe

theorem alike (h : Safe g id) (halike : Alike g g') : Safe g' id :=
  ⟨h.catalogued.alike halike, h.known.alike halike, h.findable.alike halike,
    h.unambiguous.alike halike⟩

theorem enlarged (h : Safe g id) {name : String} {waypoint : Bool}
    (hnode : Enlarged g g' name waypoint) : Safe g' id :=
  ⟨h.catalogued.enlarged hnode, h.known.enlarged hnode, h.findable.enlarged h.known hnode,
    h.unambiguous.enlarged h.known hnode⟩

theorem addEdge (h : Safe g id) (edge : Edge)
    (hown : ∀ direction, (g.side direction (edge.holder direction)).keys = [] ∨
      ∀ other, g.id? other = g.id? (edge.neighbour direction) → other = edge.neighbour direction) :
    Safe (g.addEdge edge.dependent edge.parent) id :=
  ⟨h.catalogued.addEdge _ _, h.known.addEdge _ _, h.findable.addEdge _ _, h.unambiguous.addEdge edge hown⟩

theorem removeEdge (h : Safe g id) (dependent parent : NodeKey) :
    Safe (g.removeEdge dependent parent) id :=
  ⟨h.catalogued.removeEdge _ _, h.known.removeEdge _ _,
    h.findable.removeEdge h.known h.unambiguous _ _, h.unambiguous.removeEdge _ _⟩

/-- A waypoint is hung below the last node of a chain, and becomes the loose end. -/
theorem extendChain (h : Safe g id) (source target : NodeKey) {last : NodeKey}
    (hlast : last < g.nodes.size) (layer : Nat) :
    Safe (Graph.extendChain source target (g, last) layer).1 id ∧
      LooseEnd (Graph.extendChain source target (g, last) layer).1
        (Graph.extendChain source target (g, last) layer).2 := by
  obtain ⟨base, hstep⟩ : ∃ base, Graph.extendChain source target (g, last) layer =
      ((g.withWaypoint (g.freeId base) source target layer).addEdge last g.nodes.size,
        g.nodes.size) := ⟨_, rfl⟩
  rw [hstep]
  have hnode := enlarged_withWaypoint g (g.freeId base) source target layer
  have hsafe := h.enlarged hnode
  -- no node there was has the new id, and the new node has no neighbours
  have hown : ∀ other, (g.withWaypoint (g.freeId base) source target layer).id? other =
      (g.withWaypoint (g.freeId base) source target layer).id? g.nodes.size →
        other = g.nodes.size := by
    intro other hother
    rw [hnode.id?_eq, hnode.id?_eq, if_pos rfl] at hother
    by_contra hne
    rw [if_neg hne] at hother
    have htaken := h.catalogued.isSome_find? _ other hother
    have hfree := contains_freeId h.catalogued.idsBounded base
    rw [IdIndex.contains] at hfree
    exact Bool.false_ne_true (hfree.symm.trans htaken)
  have hbare : ∀ direction,
      ((g.withWaypoint (g.freeId base) source target layer).side direction g.nodes.size).keys =
        [] := by
    intro direction
    rw [hnode.side_eq, side, (g.node?_eq_none_iff _).2 le_rfl]
    rfl
  have hsize : g.nodes.size < (g.withWaypoint (g.freeId base) source target layer).nodes.size := by
    rw [hnode.size_eq]
    exact Nat.lt_succ_self _
  constructor
  · refine hsafe.addEdge ⟨last, g.nodes.size⟩ fun direction => ?_
    cases direction with
    | parents => exact .inr hown
    | children => exact .inl (hbare .children)
  · refine ⟨?_, ?_, ?_⟩
    · rwa [nodes_size_addEdge]
    · have hside := side_addEdge ⟨last, g.nodes.size⟩ (hlast.trans hsize) hsize .parents
        g.nodes.size
      have hsame := hside.trans (if_neg (Nat.ne_of_gt hlast))
      exact (congrArg Side.keys hsame).trans (hbare .parents)
    · rw [id?_addEdge]
      exact hown

/-- One split: the edge goes, the chain grows, and its loose end is tied to the parent. -/
theorem splitEdge (h : Safe g id) (count : Nat) (dependent parent : NodeKey) :
    Safe (Graph.splitEdge dependent (g, count) parent).1 id := by
  simp only [Graph.splitEdge]
  cases hcrossed : g.crossedLayers dependent parent with
  | nil => exact h
  | cons layer rest =>
      have hdependent : dependent < (g.removeEdge dependent parent).nodes.size := by
        rw [nodes_size_removeEdge]
        unfold crossedLayers at hcrossed
        split at hcrossed
        · rename_i high low hhigh hlow
          exact g.lt_of_layerOf hhigh
        · exact absurd hcrossed.symm (List.cons_ne_nil layer rest)
      have hfirst := (h.removeEdge dependent parent).extendChain dependent parent hdependent layer
      -- from the first waypoint on, the last node of the chain is a loose end
      have hchain := List.foldlRecOn (motive := fun state : Graph α × NodeKey =>
          Safe state.1 id ∧ LooseEnd state.1 state.2) rest (Graph.extendChain dependent parent)
        hfirst fun state hstate layer _ =>
          hstate.1.extendChain dependent parent hstate.2.lt_size layer
      refine hchain.1.addEdge ⟨_, parent⟩ fun direction => ?_
      cases direction with
      | parents => exact .inl hchain.2.parents_eq
      | children => exact .inr hchain.2.eq_of_id?_eq

theorem routeLongEdges (h : Safe g id) : Safe g.routeLongEdges.1 id :=
  routeLongEdges_of_splitEdge (P := fun g : Graph α => Safe g id)
    (fun g hg => hg.alike (alike_markRouted g))
    (fun _ count dependent parent hg => hg.splitEdge count dependent parent) h

theorem layOut (h : Safe g id) (hconsistent : Consistent g) (options : LayoutOptions) :
    Safe (g.layOut options).1 id := by
  refine hconsistent.layOut_induction (P := fun g => Safe g id) ?_ ?_ ?_ options h
  · exact fun _ policy hc hg => hg.alike (hc.toLinked.alike_assignLayers policy)
  · exact fun _ _ hg => hg.routeLongEdges
  · exact fun g sweeps hg => hg.alike (alike_orderLayers g sweeps)

end Findable.Safe

/-! ## Runs -/

/-- Whether an operation may remove an edge: a routing replaces the edges that it splits. -/
def Operation.removesEdges : Operation α → Bool
  | .removeEdge _ _ => true
  | .routeLongEdges => true
  | .layOut _ => true
  | _ => false

theorem Findable.perform (h : Findable g id) (hreachable : Reachable g) (operation : Operation α)
    (hclear : operation.removesEdges = true → Unambiguous g id) :
    Findable (g.perform operation) id := by
  have hconsistent := hreachable.consistent
  have hknown := NeighboursKnown.invariant.holds hreachable
  have hsafe : Unambiguous g id → Safe g id := fun hone =>
    ⟨Catalogued.invariant.holds hreachable, hknown, h, hone⟩
  cases operation with
  | addNode name data => exact h.enlarged hknown (enlarged_addNode g name data)
  | addEdge dependent parent => exact h.addEdge dependent parent
  | removeEdge dependent parent => exact h.removeEdge hknown (hclear rfl) dependent parent
  | setData key data => exact h.alike (alike_setData g key data)
  | setPosition key position => exact h.alike (alike_setPosition g key position)
  | assignLayers policy => exact h.alike (hconsistent.toLinked.alike_assignLayers policy)
  | routeLongEdges => exact (hsafe (hclear rfl)).routeLongEdges.findable
  | orderLayers sweeps => exact h.alike (alike_orderLayers g sweeps)
  | layOut options => exact ((hsafe (hclear rfl)).layOut hconsistent options).findable

theorem Findable.run (h : Findable g id) (hreachable : Reachable g)
    {operations : List (Operation α)}
    (hclear : ∀ n operation, operations[n]? = some operation → operation.removesEdges = true →
      Unambiguous (g.run (operations.take n)) id) : Findable (g.run operations) id := by
  induction operations generalizing g with
  | nil => exact h
  | cons operation rest ih =>
      have hfirst := h.perform hreachable operation (hclear 0 operation rfl)
      exact ih hfirst (hreachable.perform operation) fun n => hclear (n + 1)

/-- Records add nodes and edges, and remove none. -/
theorem findable_ofRecords (name : α → String) (parentIds : α → List String) (records : List α)
    (id : String) : Findable (ofRecords name parentIds records) id := by
  refine (ofRecords_induction (P := fun g : Graph α => NeighboursKnown g ∧ Findable g id)
    ⟨.empty, findable_empty id⟩ ?_ ?_ name parentIds records).2
  · exact fun g name data ⟨hknown, hg⟩ =>
      ⟨hknown.enlarged (enlarged_addNode g name data), hg.enlarged hknown (enlarged_addNode g name data)⟩
  · exact fun g dependent parent ⟨hknown, hg⟩ =>
      ⟨hknown.addEdge dependent parent, hg.addEdge dependent parent⟩

/-- **Lookups.**  As long as edges are removed only while no node has two parents or two children
with an id, lookups by that id miss nothing. -/
theorem lookupsExact_run (name : α → String) (parentIds : α → List String) (records : List α)
    (operations : List (Operation α)) (id : String)
    (hclear : ∀ n operation, operations[n]? = some operation → operation.removesEdges = true →
      Unambiguous ((ofRecords name parentIds records).run (operations.take n)) id) :
    LookupsExact ((ofRecords name parentIds records).run operations) id := by
  have hreachable := Reachable.ofRecords name parentIds records
  have hfindable := (findable_ofRecords name parentIds records id).run hreachable hclear
  exact hfindable.lookupsExact (NeighboursKnown.invariant.holds (hreachable.run operations))

/-- One of two edges to a node is removed before its twin gets one. -/
theorem lookupsExact_parallel :
    LookupsExact ((ofRecords (fun id : String => id) (fun _ => []) ["a", "a", "b"]).run
      [.addEdge 2 0, .addEdge 2 0, .removeEdge 2 0, .addEdge 2 1]) "a" := by
  refine lookupsExact_run _ _ _ _ _ fun n operation hoperation hremoves => ?_
  obtain ⟨hn, rfl⟩ := List.getElem?_eq_some_iff.1 hoperation
  have : n < 4 := hn
  interval_cases n
  · exact absurd hremoves nofun
  · exact absurd hremoves nofun
  · decide +kernel
  · exact absurd hremoves nofun

/-- Edges to two nodes of one id, of which the second one is removed while it is the only one to its
parent. -/
def twins : Graph String :=
  (ofRecords (fun id => id) (fun _ => []) ["a", "a", "b"]).run
    [.addEdge 2 0, .addEdge 2 1, .removeEdge 2 1]

/-- The node still depends on the first of the two, and does not find it. -/
theorem not_lookupsExact_twins :
    Reachable twins ∧ twins.parentsOf 2 = [0] ∧ twins.id? 0 = some "a" ∧
      (twins.node? 2).map (fun node => node.parentById? "a") = some none ∧
        ¬ LookupsExact twins "a" := by
  have hparents : twins.parentsOf 2 = [0] := by decide +kernel
  have hid : twins.id? 0 = some "a" := by decide +kernel
  have hmissed : (twins.node? 2).map (fun node => node.parentById? "a") = some none := by
    decide +kernel
  refine ⟨(Reachable.ofRecords _ _ _).run _, hparents, hid, hmissed, fun hexact => ?_⟩
  obtain ⟨node, hnode, hnone⟩ := Option.map_eq_some_iff.1 hmissed
  rw [parentsOf, hnode, Option.elim_some] at hparents
  have hfound := (hexact 2 node hnode).1.2 ⟨0, by simp [hparents], hid⟩
  rw [hnone] at hfound
  exact Bool.false_ne_true hfound

/-- In general, the last edge to a neighbour takes its id along. -/
theorem parentById?_removeEdge {dependent parent : NodeKey}
    (honce : (g.parentsOf dependent).count parent = 1) {node : Node α}
    (hnode : (g.removeEdge dependent parent).node? dependent = some node) :
    node.parentById? (g.idOf parent) = none := by
  have hedge : parent ∈ g.parentsOf dependent := List.count_pos_iff.1 (by omega)
  have hgone : parent ∉ (g.side .parents dependent).keys.erase parent := by
    rw [keys_side_parents, ← List.count_eq_zero, List.count_erase_self, honce]
  have hside := side_removeEdge ⟨dependent, parent⟩ hedge .parents dependent
  rw [side_of_node? hnode] at hside
  have hget := congrArg (fun side => side.index.get? (g.idOf parent)) (hside.trans (if_pos rfl))
  exact hget.trans ((Side.get?_forgetNeighbour _ _ _ _ _).trans (if_pos ⟨hgone, rfl⟩))

/-- Lookups by an id that a single node has miss nothing, whatever happened before. -/
theorem Reachable.lookupsExact_of_own (h : Reachable g)
    (hown : ∀ u v, g.id? u = some id → g.id? v = some id → u = v) : LookupsExact g id := by
  have hinvariant : Invariant fun g : Graph α => NeighboursKnown g ∧
      ((∀ u v, g.id? u = some id → g.id? v = some id → u = v) → Findable g id) := by
    refine .of_changes ⟨.empty, fun _ => findable_empty id⟩ ?_ ?_ ?_ ?_
    · rintro g g' name waypoint hnode ⟨hknown, hg⟩
      refine ⟨hknown.enlarged hnode, fun hown => (hg fun u v hu hv => ?_).enlarged hknown hnode⟩
      exact hown u v (hnode.id?_of_id? hu) (hnode.id?_of_id? hv)
    · rintro g dependent parent ⟨hknown, hg⟩
      refine ⟨hknown.addEdge dependent parent, fun hown => ?_⟩
      rw [id?_addEdge] at hown
      exact (hg hown).addEdge dependent parent
    · rintro g dependent parent ⟨hknown, hg⟩
      refine ⟨hknown.removeEdge dependent parent, fun hown => ?_⟩
      rw [id?_removeEdge] at hown
      exact (hg hown).removeEdge hknown (fun _ _ first _ second _ => hown first second) _ _
    · rintro g g' halike ⟨hknown, hg⟩
      refine ⟨hknown.alike halike, fun hown => ?_⟩
      rw [halike.id?_eq] at hown
      exact (hg hown).alike halike
  obtain ⟨hknown, hfindable⟩ := hinvariant.holds h
  exact (hfindable hown).lookupsExact hknown

end JobGraph.Graph
