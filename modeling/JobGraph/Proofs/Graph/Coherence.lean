import JobGraph.Proofs.Graph.Invariants

/-!
# Coherent graphs

A graph keeps the same facts several times: an edge at both ends and by the ids of both, a node in
the list of its kind, by its number there and by its id, and the layout in lists and in the nodes.
Every operation updates each of them, and on every reachable graph they agree: `Coherent`.

* `Catalogued`: ids and numbers of the nodes, and the index and the lists that tell them.
* `NeighboursKnown`: the edges at both ends, and what the nodes know of their neighbours.
* Ranks are given to real nodes.

These are invariants of their own.  The lists of kinds and the layout are those of `Consistent`.
-/

namespace JobGraph.Graph

variable {α : Type} {g g' : Graph α}

/-! ## Ids and numbers -/

/-- The index leads from each id to the latest node that has it, and the lists of either kind have
every node at the place of its number. -/
structure Catalogued (g : Graph α) : Prop where
  idsBounded : IdsBounded g
  id?_of_find? : ∀ id key, g.find? id = some key → g.id? key = some id
  le_of_find? : ∀ id key later, g.find? id = some key → g.id? later = some id → later ≤ key
  isSome_find? : ∀ id key, g.id? key = some id → (g.find? id).isSome
  getElem?_keysOfKind : ∀ key id waypoint index, g.label? key = some (id, waypoint, index) →
    (g.keysOfKind waypoint)[index]? = some key

namespace Catalogued

theorem empty : Catalogued (Graph.empty : Graph α) where
  idsBounded := Nat.zero_le _
  id?_of_find? _ _ hfind := absurd hfind nofun
  le_of_find? _ _ _ hfind := absurd hfind nofun
  isSome_find? _ _ hid := absurd hid (by simp [id?, node?, Graph.empty])
  getElem?_keysOfKind _ _ _ _ hlabel := absurd hlabel (by simp [label?, node?, Graph.empty])

theorem congr (h : Catalogued g) (hsize : g'.nodes.size = g.nodes.size)
    (hlabel : g'.label? = g.label?) (hkeys : g'.keysOfKind = g.keysOfKind)
    (hindex : g'.idIndex = g.idIndex) : Catalogued g' := by
  have hid : g'.id? = g.id? := by
    funext key
    rw [id?_eq_map_label?, hlabel, id?_eq_map_label?]
  have hfind : g'.find? = g.find? := by
    funext id
    rw [find?, hindex, find?]
  refine ⟨?_, ?_, ?_, ?_, ?_⟩
  · rw [IdsBounded, hindex, hsize]
    exact h.idsBounded
  · rw [hfind, hid]
    exact h.id?_of_find?
  · rw [hfind, hid]
    exact h.le_of_find?
  · rw [hfind, hid]
    exact h.isSome_find?
  · rw [hlabel, hkeys]
    exact h.getElem?_keysOfKind

/-- The new node is the latest one of its id and the last one of its kind. -/
theorem enlarged {id : String} {waypoint : Bool} (h : Catalogued g)
    (hnode : Enlarged g g' id waypoint) : Catalogued g' := by
  have hfind : ∀ name, g'.find? name =
      if name = id then some g.nodes.size else g.find? name := by
    intro name
    rw [find?, hnode.idIndex_eq, IdIndex.get?_insert, find?]
  refine ⟨?_, ?_, ?_, ?_, ?_⟩
  · rw [IdsBounded, hnode.idIndex_eq, hnode.size_eq]
    exact Nat.succ_le_succ h.idsBounded
  · intro name key hkey
    rw [hfind] at hkey
    split at hkey
    · rename_i hname
      rw [hnode.id?_eq, if_pos (Option.some.inj hkey).symm, hname]
    · exact hnode.id?_of_id? (h.id?_of_find? name key hkey)
  · intro name key later hkey hlater
    have hlt : later < g'.nodes.size := lt_of_isSome_id? (Option.isSome_of_eq_some hlater)
    rw [hnode.size_eq] at hlt
    rw [hfind] at hkey
    split at hkey
    · rw [← Option.some.inj hkey]
      exact Nat.lt_succ_iff.1 hlt
    · rename_i hname
      rw [hnode.id?_eq] at hlater
      split at hlater
      · exact absurd (Option.some.inj hlater).symm hname
      · exact h.le_of_find? name key later hkey hlater
  · intro name key hkey
    rw [hfind]
    rw [hnode.id?_eq] at hkey
    split
    · rfl
    · rename_i hname
      split at hkey
      · exact absurd (Option.some.inj hkey).symm hname
      · exact h.isSome_find? name key hkey
  · intro key name kind index hlabel
    rw [hnode.label?_eq] at hlabel
    rw [hnode.keysOfKind_eq]
    split at hlabel
    · rename_i hkey
      obtain ⟨-, rfl, rfl⟩ : id = name ∧ waypoint = kind ∧
          (g.keysOfKind waypoint).length = index := by simpa using hlabel
      rw [if_pos rfl, List.getElem?_concat_length, hkey]
    · have hold := h.getElem?_keysOfKind key name kind index hlabel
      rw [List.getElem?_append_left (List.getElem?_eq_some_iff.1 hold).1, hold]

/-- Ids and numbers do not depend on edges. -/
private theorem of_edges (h : Catalogued g) (hsize : g'.nodes.size = g.nodes.size)
    (hbare : ∀ key, g'.bareNode? key = g.bareNode? key) (hreal : g'.realKeys = g.realKeys)
    (hwaypoints : g'.waypointKeys = g.waypointKeys) (hindex : g'.idIndex = g.idIndex) :
    Catalogued g' := by
  refine h.congr hsize (funext fun key => label?_of_bareNode?_eq (hbare key)) ?_ hindex
  funext waypoint
  rw [keysOfKind, hreal, hwaypoints, keysOfKind]

theorem addEdge (h : Catalogued g) (dependent parent : NodeKey) :
    Catalogued (g.addEdge dependent parent) := by
  obtain ⟨hreal, hwaypoints, -⟩ := fields_addEdge g dependent parent
  exact h.of_edges (by simp) (bareNode?_addEdge g dependent parent) hreal hwaypoints
    (idIndex_addEdge g dependent parent)

theorem removeEdge (h : Catalogued g) (dependent parent : NodeKey) :
    Catalogued (g.removeEdge dependent parent) := by
  obtain ⟨hreal, hwaypoints, -⟩ := fields_removeEdge g dependent parent
  exact h.of_edges (by simp) (bareNode?_removeEdge g dependent parent) hreal hwaypoints
    (idIndex_removeEdge g dependent parent)

theorem alike (h : Catalogued g) (halike : Alike g g') : Catalogued g' :=
  h.congr halike.size_eq halike.label?_eq halike.keysOfKind_eq halike.idIndex_eq

theorem invariant : Invariant (Catalogued (α := α)) :=
  .of_changes empty (fun _ _ _ _ hnode h => h.enlarged hnode)
    (fun _ dependent parent h => h.addEdge dependent parent)
    (fun _ dependent parent h => h.removeEdge dependent parent) fun _ _ halike h => h.alike halike

theorem find?_iff (h : Catalogued g) (id : String) (key : NodeKey) :
    g.find? id = some key ↔
      g.id? key = some id ∧ ∀ later, g.id? later = some id → later ≤ key := by
  constructor
  · exact fun hfind => ⟨h.id?_of_find? id key hfind, fun later => h.le_of_find? id key later hfind⟩
  · rintro ⟨hid, hlatest⟩
    obtain ⟨found, hfind⟩ := Option.isSome_iff_exists.1 (h.isSome_find? id key hid)
    have hle := hlatest found (h.id?_of_find? id found hfind)
    rw [hfind, le_antisymm hle (h.le_of_find? id found key hfind hid)]

end Catalogued

/-! ## Neighbours -/

/-- Both sides of every node know their neighbours, and both ends of an edge keep it. -/
structure NeighboursKnown (g : Graph α) : Prop where
  known : ∀ direction key, (g.side direction key).Known g.id?
  balanced : Balanced g

namespace NeighboursKnown

theorem empty : NeighboursKnown (Graph.empty : Graph α) where
  known _ _ := Side.known_empty _
  balanced _ _ := rfl

/-- Either end of an edge has the other one for a neighbour. -/
theorem neighbour_mem (h : NeighboursKnown g) (edge : Edge)
    (hedge : edge.parent ∈ g.parentsOf edge.dependent) (direction : Direction) :
    edge.neighbour direction ∈ (g.side direction (edge.holder direction)).keys := by
  cases direction with
  | parents => rwa [keys_side_parents]
  | children =>
      rw [keys_side_children]
      exact h.balanced.mem_childrenOf_iff.2 hedge

theorem id?_neighbour (h : NeighboursKnown g) (edge : Edge)
    (hedge : edge.parent ∈ g.parentsOf edge.dependent) (direction : Direction) :
    g.id? (edge.neighbour direction) = some (g.idOf (edge.neighbour direction)) :=
  id?_eq_some_idOf
    (lt_of_isSome_id? ((h.known direction _).isSome_id? _ (h.neighbour_mem edge hedge direction)))

theorem addEdge (h : NeighboursKnown g) (dependent parent : NodeKey) :
    NeighboursKnown (g.addEdge dependent parent) := by
  by_cases hends : dependent < g.nodes.size ∧ parent < g.nodes.size
  · refine ⟨fun direction key => ?_, h.balanced.addEdge dependent parent⟩
    rw [id?_addEdge, side_addEdge ⟨dependent, parent⟩ hends.1 hends.2]
    split
    · refine (h.known direction key).add (id?_eq_some_idOf ?_)
      cases direction
      · exact hends.2
      · exact hends.1
    · exact h.known direction key
  · rwa [g.addEdge_of_not_lt hends]

theorem removeEdge (h : NeighboursKnown g) (dependent parent : NodeKey) :
    NeighboursKnown (g.removeEdge dependent parent) := by
  by_cases hedge : parent ∈ g.parentsOf dependent
  · refine ⟨fun direction key => ?_, h.balanced.removeEdge dependent parent⟩
    rw [id?_removeEdge, side_removeEdge ⟨dependent, parent⟩ hedge]
    split
    · exact (h.known direction key).drop
        (h.id?_neighbour ⟨dependent, parent⟩ hedge direction)
    · exact h.known direction key
  · rwa [g.removeEdge_of_not_mem hedge]

theorem of_side_eq (h : NeighboursKnown g) (hside : g'.side = g.side)
    (hid : ∀ key id, g.id? key = some id → g'.id? key = some id) : NeighboursKnown g' where
  known direction key := by
    rw [hside]
    exact (h.known direction key).mono hid
  balanced dependent parent := by
    rw [← keys_side_parents, ← keys_side_children, hside, keys_side_parents, keys_side_children]
    exact h.balanced dependent parent

theorem enlarged {id : String} {waypoint : Bool} (h : NeighboursKnown g)
    (hnode : Enlarged g g' id waypoint) : NeighboursKnown g' :=
  h.of_side_eq hnode.side_eq fun _ _ => hnode.id?_of_id?

theorem alike (h : NeighboursKnown g) (halike : Alike g g') : NeighboursKnown g' :=
  h.of_side_eq halike.side_eq fun _ _ hid => by rwa [halike.id?_eq]

theorem invariant : Invariant (NeighboursKnown (α := α)) :=
  .of_changes empty (fun _ _ _ _ hnode h => h.enlarged hnode)
    (fun _ dependent parent h => h.addEdge dependent parent)
    (fun _ dependent parent h => h.removeEdge dependent parent) fun _ _ halike h => h.alike halike

end NeighboursKnown

/-! ## Ranks -/

/-- Only real nodes have a rank: a layering ranks a graph without waypoints, and waypoints that come
later get none. -/
theorem invariant_ranking_subset_realKeys :
    Invariant fun g : Graph α => g.ranking ⊆ g.realKeys where
  empty := List.Subset.refl _
  addNode _ _ _ h := List.subset_append_of_subset_left _ h
  addEdge g dependent parent h := by
    obtain ⟨hreal, -, -, hranking, -⟩ := fields_addEdge g dependent parent
    rwa [hreal, hranking]
  removeEdge g dependent parent h := by
    obtain ⟨hreal, -, -, hranking, -⟩ := fields_removeEdge g dependent parent
    rwa [hreal, hranking]
  setData _ _ _ h := h
  setPosition _ _ _ h := h
  assignLayers g policy hconsistent h := by
    cases hrouted : g.routed with
    | true => rwa [assignLayers, if_pos hrouted]
    | false =>
        have heq := clearLayout_assignLayers hconsistent.toLinked policy
        have hsame : (g.assignLayers policy).1.clearLayout.routed = g.clearLayout.routed := by rw [heq]
        exact (hconsistent.assignLayers policy).ranking_subset_realKeys (hsame.trans hrouted)
  orderLayers g sweeps h := by
    obtain ⟨layers, heq, -⟩ := g.orderLayers_fst sweeps
    rwa [heq]
  markRouted _ h := h
  withWaypoint _ _ _ _ _ h := h

/-! ## Everything agrees -/

/-- All that a graph keeps more than once agrees. -/
structure Coherent (g : Graph α) : Prop where
  /-- Both ends of the edges between two nodes keep as many. -/
  count_parentsOf : ∀ dependent parent,
    (g.parentsOf dependent).count parent = (g.childrenOf parent).count dependent
  /-- The two lists of nodes part the keys, in the order of their creation. -/
  realKeys_eq : g.realKeys = g.keys.filter fun key => !g.isWaypoint key
  waypointKeys_eq : g.waypointKeys = g.keys.filter fun key => g.isWaypoint key
  /-- The number of a node is its place in the list of its kind. -/
  getElem?_index : ∀ key node, g.node? key = some node →
    (if node.isWaypoint then g.waypointKeys else g.realKeys)[node.index]? = some key
  /-- An id leads to the latest node that has it. -/
  find?_iff : ∀ id key, g.find? id = some key ↔
    g.id? key = some id ∧ ∀ later, g.id? later = some id → later ≤ key
  /-- A parent that is found by an id is a parent and has the id. -/
  of_parentById? : ∀ key node id parent, g.node? key = some node →
    node.parentById? id = some parent → parent ∈ node.parents ∧ g.id? parent = some id
  /-- A child that is found by an id is a child and has the id. -/
  of_childById? : ∀ key node id child, g.node? key = some node →
    node.childById? id = some child → child ∈ node.children ∧ g.id? child = some id
  /-- A node stands once on its layer and on no other one. -/
  count_layer : ∀ key layer,
    (g.layers[layer]?.getD []).count key = if g.layerOf key = some layer then 1 else 0
  /-- The rank of a node is its place in the ranking. -/
  rankOf_iff : ∀ key rank, g.rankOf key = some rank ↔ g.ranking[rank]? = some key
  /-- Ranked nodes are real. -/
  mem_realKeys_of_rankOf : ∀ key rank, g.rankOf key = some rank → key ∈ g.realKeys

theorem Placed.count_layer (h : Placed g) (key : NodeKey) (layer : Nat) :
    (g.layers[layer]?.getD []).count key = if g.layerOf key = some layer then 1 else 0 := by
  split
  · rename_i hlayer
    exact List.count_eq_one_of_mem (h.nodup_layer layer) (h.mem_layer_iff.2 hlayer)
  · rename_i hlayer
    exact List.count_eq_zero.2 fun hmem => hlayer (h.mem_layer_iff.1 hmem)

theorem side_of_node? {key : NodeKey} {node : Node α} (hnode : g.node? key = some node)
    (direction : Direction) : g.side direction key = node.side direction := by
  rw [side, hnode, Option.elim_some]

/-- **Coherence.**  Whatever operations a graph went through, failed ones included, all that it keeps
more than once agrees. -/
theorem Reachable.coherent (h : Reachable g) : Coherent g := by
  have hconsistent := h.consistent
  have hcatalogued := Catalogued.invariant.holds h
  have hknown := NeighboursKnown.invariant.holds h
  have hranked := invariant_ranking_subset_realKeys.holds h
  refine ⟨hconsistent.count_parentsOf, hconsistent.realKeys_eq, hconsistent.waypointKeys_eq, ?_,
    hcatalogued.find?_iff, ?_, ?_, hconsistent.toPlaced.count_layer, hconsistent.rankOf_iff, ?_⟩
  · intro key node hnode
    refine hcatalogued.getElem?_keysOfKind key node.id node.isWaypoint node.index ?_
    rw [label?, hnode]
    rfl
  · intro key node id parent hnode hfound
    have hside := hknown.known .parents key
    rw [side_of_node? hnode] at hside
    exact hside.of_get? id parent hfound
  · intro key node id child hnode hfound
    have hside := hknown.known .children key
    rw [side_of_node? hnode] at hside
    exact hside.of_get? id child hfound
  · intro key rank hrank
    exact hranked (List.mem_of_getElem? ((hconsistent.rankOf_iff key rank).1 hrank))

/-- Two nodes of one id, two edges between the same nodes of which one is removed, a node that
depends on itself and a long edge.  After the routing a node is added and a layering fails. -/
def knot : Graph Unit :=
  empty.run [.addNode "a" (), .addNode "b" (), .addNode "c" (), .addNode "d" (), .addEdge 1 0,
    .addEdge 2 1, .addEdge 2 1, .addEdge 2 0, .addEdge 3 3, .removeEdge 2 1, .assignLayers .lenient,
    .routeLongEdges, .addNode "b" (), .addEdge 5 2, .assignLayers .strict, .orderLayers 2]

theorem coherent_knot :
    Coherent knot ∧ knot.realKeys = [0, 1, 2, 3, 5] ∧ knot.waypointKeys = [4] ∧
      knot.keys.map knot.layerOf = [some 0, some 1, some 2, none, some 1, none] ∧
      knot.ranking = [0, 1, 2] ∧ knot.find? "b" = some 5 ∧
      knot.parentsOf 2 = [1, 4] ∧ knot.childrenOf 2 = [5] ∧
      (knot.node? 2).bind (fun node => node.parentById? "b") = some 1 ∧
      (knot.node? 2).bind (fun node => node.childById? "b") = some 5 := by
  refine ⟨(Reachable.empty.run _).coherent, ?_⟩
  decide +kernel

end JobGraph.Graph
