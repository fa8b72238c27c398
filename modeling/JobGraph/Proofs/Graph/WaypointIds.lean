import JobGraph.Proofs.Graph.Coherence

/-!
# What waypoints are called

A waypoint asks for the id that is made of the ids of the two ends of its edge and of its layer.  Ids
of nodes may be anything, so the wish may be the id of another node, and parallel edges wish for the
same id.

* **Turns.**  Waypoints are named one after the other, and each minds the nodes before it only.  A node
  that comes later cannot take an id away, and no node changes its id: so what was free when a waypoint
  was created is read off the final graph, `TakenBefore`.
* **The search.**  The number behind an id is the least one from two on that makes the id free among
  all numbers, not only among those that are tried.  Numbers are tried up to one more than there are
  nodes, and distinct numbers make distinct ids, so one of them is free.
-/

namespace JobGraph.Graph

variable {α : Type} {g g' : Graph α} {base id : String} {key : NodeKey}

/-! ## The search for a free id -/

/-- The numbers from two on that make an id free. -/
def freeNumbers (taken : String → Prop) (base : String) : Set Nat :=
  {number | 2 ≤ number ∧ ¬ taken (numberedId base number)}

/-- The id is the base unless that is taken; then it is the base with the least number from two on
that makes it free. -/
def IsGiven (taken : String → Prop) (base id : String) : Prop :=
  ¬ taken base ∧ id = base ∨
    taken base ∧ ∃ number, IsLeast (freeNumbers taken base) number ∧ id = numberedId base number

theorem IsGiven.not_taken {taken : String → Prop} (h : IsGiven taken base id) : ¬ taken id := by
  rcases h with ⟨hfree, rfl⟩ | ⟨-, number, hleast, rfl⟩
  · exact hfree
  · exact hleast.1.2

/-- The candidates that are tried reach the least number that is free. -/
theorem isGiven_freeId (h : IdsBounded g) (base : String) :
    IsGiven (fun id => g.idIndex.contains id = true) base (g.freeId base) := by
  by_cases hbase : g.idIndex.contains base = true
  · obtain ⟨bound, hbound, hfree⟩ := exists_free_numberedId h base
    have hsome : ((List.range (g.nodes.size + 1)).find? fun n =>
        !g.idIndex.contains (numberedId base (n + 2))).isSome := by
      rw [List.find?_isSome]
      exact ⟨bound, List.mem_range.2 hbound, by rw [hfree]; rfl⟩
    obtain ⟨n, hn⟩ := Option.isSome_iff_exists.1 hsome
    obtain ⟨hnfree, -, hbefore⟩ := List.find?_range_eq_some.1 hn
    right
    refine ⟨hbase, n + 2, ⟨⟨Nat.le_add_left 2 n, by simpa using hnfree⟩, ?_⟩, ?_⟩
    · -- a lower number was tried before, and it was taken
      rintro number ⟨htwo, hnumber⟩
      by_contra hlower
      have := hbefore (number - 2) (by omega)
      rw [Nat.sub_add_cancel htwo] at this
      exact hnumber (by simpa using this)
    · unfold freeId
      rw [if_pos hbase]
      dsimp only
      rw [List.find?_map, Function.comp_def, hn]
      rfl
  · exact .inl ⟨hbase, if_neg hbase⟩

/-! ## Ids taken before a node -/

/-- A node that was created before has the id. -/
def TakenBefore (g : Graph α) (key : NodeKey) (id : String) : Prop :=
  ∃ earlier < key, g.id? earlier = some id

theorem idOf_eq_getD_id? (g : Graph α) (key : NodeKey) : g.idOf key = (g.id? key).getD "" := by
  rw [idOf, id?]
  cases g.node? key <;> rfl

theorem takenBefore_congr (h : ∀ earlier < key, g'.id? earlier = g.id? earlier) :
    g'.TakenBefore key = g.TakenBefore key := by
  funext id
  refine propext (exists_congr fun earlier => and_congr_right fun hearlier => ?_)
  rw [h earlier hearlier]

/-- The index knows the ids of all nodes there are. -/
theorem Catalogued.takenBefore_size (h : Catalogued g) :
    g.TakenBefore g.nodes.size = fun id => g.idIndex.contains id = true := by
  funext id
  apply propext
  constructor
  · rintro ⟨earlier, -, hid⟩
    exact h.isSome_find? id earlier hid
  · intro hcontains
    obtain ⟨found, hfound⟩ := Option.isSome_iff_exists.1 hcontains
    have hid := h.id?_of_find? id found hfound
    exact ⟨found, lt_of_isSome_id? (Option.isSome_of_eq_some hid), hid⟩

/-! ## Waypoints named in turn -/

/-- If the node is a waypoint that is younger than the ends of its edge, it has the id it is given in
its turn. -/
def NamedInTurn (g : Graph α) (key : NodeKey) : Prop :=
  ∀ source target, (g.node? key).bind Node.ends? = some (source, target) →
    source < key → target < key → ∃ layer, g.layerOf key = some layer ∧
      IsGiven (g.TakenBefore key) (waypointId (g.idOf source) (g.idOf target) layer) (g.idOf key)

/-- Later nodes and edges do not matter. -/
theorem NamedInTurn.congr (h : NamedInTurn g key)
    (hbare : ∀ earlier ≤ key, g'.bareNode? earlier = g.bareNode? earlier) : NamedInTurn g' key := by
  have hid : ∀ earlier ≤ key, g'.id? earlier = g.id? earlier :=
    fun earlier hearlier => id?_of_bareNode?_eq (hbare earlier hearlier)
  have hidOf : ∀ earlier ≤ key, g'.idOf earlier = g.idOf earlier := by
    intro earlier hearlier
    rw [idOf_eq_getD_id?, hid earlier hearlier, idOf_eq_getD_id?]
  intro source target hends hsource htarget
  rw [ends?_of_bareNode?_eq (hbare key le_rfl)] at hends
  obtain ⟨layer, hlayer, hgiven⟩ := h source target hends hsource htarget
  refine ⟨layer, (layerOf_of_bareNode?_eq (hbare key le_rfl)).trans hlayer, ?_⟩
  rw [takenBefore_congr fun earlier hearlier => hid earlier hearlier.le, hidOf source hsource.le,
    hidOf target htarget.le, hidOf key le_rfl]
  exact hgiven

/-- The turn of a new waypoint: all nodes there are come before it. -/
theorem Catalogued.namedInTurn_withWaypoint (h : Catalogued g) {source target : NodeKey}
    {layer : Nat} (hgiven : IsGiven (fun id => g.idIndex.contains id = true)
      (waypointId (g.idOf source) (g.idOf target) layer) id) :
    NamedInTurn (g.withWaypoint id source target layer) g.nodes.size := by
  have hold : ∀ earlier < g.nodes.size,
      (g.withWaypoint id source target layer).id? earlier = g.id? earlier :=
    fun earlier hearlier => id?_of_bareNode?_eq
      ((g.grown_withWaypoint id source target layer).bareNode?_eq earlier
        ((mem_keys g earlier).2 hearlier))
  have hnode := g.node?_withWaypoint id source target layer g.nodes.size
  rw [if_pos rfl] at hnode
  intro first second hends hfirst hsecond
  rw [hnode] at hends
  obtain ⟨rfl, rfl⟩ : source = first ∧ target = second := by
    simpa [Node.ends?, Node.new] using hends
  have hidOf : ∀ earlier < g.nodes.size,
      (g.withWaypoint id source target layer).idOf earlier = g.idOf earlier := by
    intro earlier hearlier
    rw [idOf_eq_getD_id?, hold earlier hearlier, idOf_eq_getD_id?]
  have hnew : (g.withWaypoint id source target layer).idOf g.nodes.size = id := by
    rw [idOf, hnode]
    rfl
  refine ⟨layer, ?_, ?_⟩
  · rw [layerOf_withWaypoint, if_pos rfl]
  · rw [takenBefore_congr hold, h.takenBefore_size, hidOf source hfirst, hidOf target hsecond, hnew]
    exact hgiven

/-- Every step of a routing keeps the ids it finds and names the waypoint it adds in its turn. -/
theorem namedInTurn_routeLongEdges (hcatalogued : Catalogued g) (hnamed : ∀ key, NamedInTurn g key) :
    Catalogued g.routeLongEdges.1 ∧ ∀ key, NamedInTurn g.routeLongEdges.1 key := by
  refine routeLongEdges_induction_named
    (P := fun next => Catalogued next ∧ ∀ key, NamedInTurn next key) ?_ ?_ ?_ ?_
    ⟨hcatalogued, hnamed⟩
  · rintro next ⟨hcatalogued, hnamed⟩
    exact ⟨Catalogued.invariant.markRouted next hcatalogued,
      fun key => (hnamed key).congr fun _ _ => rfl⟩
  · rintro next dependent parent ⟨hcatalogued, hnamed⟩
    exact ⟨hcatalogued.addEdge dependent parent,
      fun key => (hnamed key).congr fun earlier _ => bareNode?_addEdge next dependent parent earlier⟩
  · rintro next dependent parent ⟨hcatalogued, hnamed⟩
    exact ⟨hcatalogued.removeEdge dependent parent, fun key =>
      (hnamed key).congr fun earlier _ => bareNode?_removeEdge next dependent parent earlier⟩
  · rintro next source target layer ⟨hcatalogued, hnamed⟩
    refine ⟨Catalogued.invariant.withWaypoint next _ source target layer hcatalogued, fun key => ?_⟩
    have hgrown := next.grown_withWaypoint
      (next.freeId (waypointId (next.idOf source) (next.idOf target) layer)) source target layer
    rcases Nat.lt_trichotomy key next.nodes.size with hold | rfl | hlate
    · exact (hnamed key).congr fun earlier hearlier =>
        hgrown.bareNode?_eq earlier ((mem_keys next earlier).2 (hearlier.trans_lt hold))
    · exact hcatalogued.namedInTurn_withWaypoint (isGiven_freeId hcatalogued.idsBounded _)
    · -- there is no node of that key
      intro first second hends
      rw [(node?_eq_none_iff _ key).2 (by rw [nodes_size_withWaypoint]; omega)] at hends
      exact absurd hends nofun

/-! ## The ids of a routed graph -/

/-- What a routing that leads from `g` to `g'` does to ids. -/
structure WaypointIds (g g' : Graph α) : Prop where
  /-- Nodes that there were keep their ids. -/
  id?_eq : ∀ key < g.nodes.size, g'.id? key = g.id? key
  /-- Ids that there were lead where they led. -/
  find?_eq : ∀ key id, g.id? key = some id → g'.find? id = g.find? id
  /-- No other node has the id of a waypoint. -/
  unique : ∀ waypoint ∈ g'.waypointKeys, ∀ key, g'.id? key = g'.id? waypoint → key = waypoint
  /-- The id of a waypoint leads to the waypoint. -/
  find?_idOf : ∀ waypoint ∈ g'.waypointKeys, g'.find? (g'.idOf waypoint) = some waypoint
  /-- A waypoint is named for the ends of its edge and its layer, minding the nodes before it. -/
  isGiven : ∀ waypoint ∈ g'.waypointKeys, ∃ source target layer,
    (g'.node? waypoint).bind Node.ends? = some (source, target) ∧
      source ∈ g.realKeys ∧ target ∈ g.realKeys ∧ g'.layerOf waypoint = some layer ∧
      IsGiven (g'.TakenBefore waypoint) (waypointId (g.idOf source) (g.idOf target) layer)
        (g'.idOf waypoint)
  /-- Whatever a waypoint wishes for, the search comes to an end. -/
  exists_free : ∀ waypoint ∈ g'.waypointKeys, ∀ base, ∃ number : Nat, number ≤ waypoint + 2 ∧
    number ∈ freeNumbers (g'.TakenBefore waypoint) base

/-- Before a node there are as many nodes as its key says, so that one number more is enough. -/
theorem exists_mem_freeNumbers (g : Graph α) (key : NodeKey) (base : String) :
    ∃ number : Nat, number ≤ key + 2 ∧ number ∈ freeNumbers (g.TakenBefore key) base := by
  -- if all of them were taken, one earlier node would hold the ids of two numbers
  by_contra hall
  have htaken : ∀ n : Nat, n < key + 1 →
      ∃ earlier < key, g.id? earlier = some (numberedId base (n + 2)) := by
    intro n hn
    by_contra hfree
    exact hall ⟨n + 2, by omega, Nat.le_add_left 2 n, hfree⟩
  choose! holder hlt hid using htaken
  have hcard : (Finset.range key).card < (Finset.range (key + 1)).card := by simp
  obtain ⟨i, hi, j, hj, hne, heq⟩ := Finset.exists_ne_map_eq_of_card_lt_of_maps_to hcard
    (f := holder) fun n hn => by
      simpa using hlt n (Finset.mem_range.1 hn)
  rw [Finset.mem_range] at hi hj
  have hsame := (hid i hi).symm.trans ((congrArg g.id? heq).trans (hid j hj))
  exact hne (Nat.add_right_cancel (numberedId_injective base (Option.some.inj hsame)))

theorem Consistent.mem_waypointKeys_of_ends? (h : Consistent g) {ends : NodeKey × NodeKey}
    (hends : (g.node? key).bind Node.ends? = some ends) : key ∈ g.waypointKeys := by
  obtain ⟨node, hnode, hends⟩ := Option.bind_eq_some_iff.1 hends
  rw [h.waypointKeys_eq, List.mem_filter, mem_keys, isWaypoint, hnode]
  exact ⟨(Array.getElem?_eq_some_iff.1 hnode).1, Option.isSome_of_eq_some hends⟩

/-- Ids given in turn are distinct: an earlier node does not have the id, or it would have been taken,
and a later one is a waypoint that found it taken. -/
theorem eq_of_id?_eq_waypoint (hgiven : ∀ waypoint ∈ g.waypointKeys,
      ¬ g.TakenBefore waypoint (g.idOf waypoint))
    {waypoint : NodeKey} (hwaypoint : waypoint ∈ g.waypointKeys)
    (hlater : ∀ key, waypoint < key → key < g.nodes.size → key ∈ g.waypointKeys)
    (hsize : waypoint < g.nodes.size) (hsame : g.id? key = g.id? waypoint) : key = waypoint := by
  have hid := id?_eq_some_idOf hsize
  have hkey : key < g.nodes.size := lt_of_isSome_id? (by rw [hsame, hid]; rfl)
  rcases Nat.lt_trichotomy key waypoint with hlt | heq | hgt
  · exact absurd ⟨key, hlt, hsame.trans hid⟩ (hgiven waypoint hwaypoint)
  · exact heq
  · refine absurd ⟨waypoint, hgt, ?_⟩ (hgiven key (hlater key hgt hkey))
    rw [← hsame, id?_eq_some_idOf hkey]

/-- The waypoints of a routing are the new nodes. -/
theorem Routed.mem_waypointKeys_iff {chains : List Chain} (h : Routed g g' chains) :
    key ∈ g'.waypointKeys ↔ g.nodes.size ≤ key ∧ key < g'.nodes.size := by
  have hnodup := g'.nodup_keys
  rw [h.keys_eq] at hnodup
  have hdisjoint := List.disjoint_of_nodup_append hnodup
  rw [h.waypointKeys_eq, ← not_lt, ← mem_keys g, ← mem_keys g', h.keys_eq, List.mem_append]
  constructor
  · exact fun hnew => ⟨fun hold => hdisjoint hold hnew, .inr hnew⟩
  · rintro ⟨hnew, hold | hnew'⟩
    · exact absurd hold hnew
    · exact hnew'

/-- The ends of the edge that a waypoint bends were there before it, so it is named in its turn. -/
theorem Routed.isGiven {chains : List Chain} (h : Routed g g' chains) (hlinked : Linked g)
    (hunrouted : g.routed = false) (hnamed : ∀ key, NamedInTurn g' key) {waypoint : NodeKey}
    (hwaypoint : waypoint ∈ g'.waypointKeys) :
    ∃ source target layer, (g'.node? waypoint).bind Node.ends? = some (source, target) ∧
      source ∈ g.realKeys ∧ target ∈ g.realKeys ∧ g'.layerOf waypoint = some layer ∧
      IsGiven (g'.TakenBefore waypoint) (waypointId (g.idOf source) (g.idOf target) layer)
        (g'.idOf waypoint) := by
  have hyoung := (h.mem_waypointKeys_iff.1 hwaypoint).1
  rw [h.waypointKeys_eq] at hwaypoint
  obtain ⟨chain, hchain, hkey⟩ := List.mem_flatMap.1 hwaypoint
  have hends := h.ends chain hchain waypoint hkey
  have hedge : chain.edge ∈ g.edges := by
    have hmem : chain.edge ∈ chains.map Chain.edge := List.mem_map_of_mem hchain
    exact (List.mem_filter.1 (h.chains_perm.mem_iff.1 hmem)).1
  obtain ⟨hsource, htarget⟩ := hlinked.mem_keys_of_mem_edges hedge
  have hidOf : ∀ key ∈ g.keys, g'.idOf key = g.idOf key := by
    intro key hkey
    rw [idOf_eq_getD_id?, id?_of_bareNode?_eq (h.bareNode?_eq key hkey), idOf_eq_getD_id?]
  obtain ⟨layer, hlayer, hgiven⟩ := hnamed waypoint _ _ hends
    (((mem_keys g _).1 hsource).trans_le hyoung) (((mem_keys g _).1 htarget).trans_le hyoung)
  rw [hidOf _ hsource, hidOf _ htarget] at hgiven
  rw [hlinked.realKeys_eq_keys hunrouted]
  exact ⟨_, _, layer, hends, hsource, htarget, hlayer, hgiven⟩

/-- The ids after a routing that adds waypoints. -/
theorem Routed.waypointIds {chains : List Chain} (h : Routed g g' chains) (hlinked : Linked g)
    (hunrouted : g.routed = false) (hcatalogued : Catalogued g) (hcatalogued' : Catalogued g')
    (hkept : NamesKept g g') (hnamed : ∀ key, NamedInTurn g' key) : WaypointIds g g' := by
  have hgiven := fun waypoint (hwaypoint : waypoint ∈ g'.waypointKeys) =>
    h.isGiven hlinked hunrouted hnamed hwaypoint
  have hfree : ∀ waypoint ∈ g'.waypointKeys, ¬ g'.TakenBefore waypoint (g'.idOf waypoint) := by
    intro waypoint hwaypoint
    obtain ⟨source, target, layer, -, -, -, -, hgiven⟩ := hgiven waypoint hwaypoint
    exact hgiven.not_taken
  have hunique : ∀ waypoint ∈ g'.waypointKeys, ∀ key, g'.id? key = g'.id? waypoint →
      key = waypoint := by
    intro waypoint hwaypoint key hsame
    obtain ⟨hle, hlt⟩ := h.mem_waypointKeys_iff.1 hwaypoint
    refine eq_of_id?_eq_waypoint hfree hwaypoint (fun later hlater hsize => ?_) hlt hsame
    exact h.mem_waypointKeys_iff.2 ⟨hle.trans hlater.le, hsize⟩
  refine ⟨fun key hkey => ?_, fun key id hid => ?_, hunique, fun waypoint hwaypoint => ?_, hgiven,
    fun waypoint _ base => g'.exists_mem_freeNumbers waypoint base⟩
  · exact id?_of_bareNode?_eq (h.bareNode?_eq key ((mem_keys g key).2 hkey))
  · exact hkept.find?_eq hcatalogued.idsBounded id (hcatalogued.isSome_find? id key hid)
  · have hid := id?_eq_some_idOf (h.mem_waypointKeys_iff.1 hwaypoint).2
    refine (hcatalogued'.find?_iff _ waypoint).2 ⟨hid, fun later hlater => ?_⟩
    exact (hunique waypoint hwaypoint later (hlater.trans hid.symm)).le

theorem waypointIds_self (hnone : g.waypointKeys = []) : WaypointIds g g := by
  have hno : ∀ {motive : NodeKey → Prop}, ∀ waypoint ∈ g.waypointKeys, motive waypoint := by
    intro motive waypoint hwaypoint
    rw [hnone] at hwaypoint
    exact absurd hwaypoint List.not_mem_nil
  exact ⟨fun _ _ => rfl, fun _ _ _ => rfl, hno, hno, hno, hno⟩

/-- **Ids of waypoints.**  Take a sorted graph without waypoints, whatever its ids are.  A routing
succeeds unless there was one before.  Every waypoint gets the id it is named for, or the one that the
least free number makes of it, and the search for that number ends.  No other node has this id, and it
leads to the waypoint, while the ids that there were lead where they led. -/
theorem Reachable.waypointIds_routeLongEdges (h : Reachable g) (hsorted : g.sorted = true)
    (hnone : g.waypointKeys = []) :
    (g.routed = false → g.routeLongEdges.2 = .ok g.routeLongEdges.1.waypointKeys.length) ∧
      WaypointIds g g.routeLongEdges.1 := by
  have hconsistent := h.consistent
  cases hunrouted : g.routed with
  | true =>
      have hsame : g.routeLongEdges.1 = g := by simp [routeLongEdges, hsorted, hunrouted]
      rw [hsame]
      exact ⟨by simp, waypointIds_self hnone⟩
  | false =>
      have hcatalogued := Catalogued.invariant.holds h
      have hno : ∀ key, NamedInTurn g key := by
        intro key source target hends
        have := hconsistent.mem_waypointKeys_of_ends? hends
        rw [hnone] at this
        exact absurd this List.not_mem_nil
      have hkept := g.namesKept_routeLongEdges
      obtain ⟨hcatalogued', hnamed⟩ := namedInTurn_routeLongEdges hcatalogued hno
      obtain ⟨state, chains, heq, hsplitting, hperm⟩ :=
        exists_splitting_routeLongEdges hconsistent hsorted hunrouted
      have hrouted : Routed g state.1 chains :=
        (hsplitting.routed hperm hconsistent.markRouted.toLinked hnone).of_markRouted
      rw [heq] at hkept hcatalogued' hnamed ⊢
      refine ⟨fun _ => ?_, hrouted.waypointIds hconsistent.toLinked hunrouted hcatalogued hcatalogued'
        hkept hnamed⟩
      rw [hrouted.waypointKeys_eq, hsplitting.count_eq]

/-- Two parallel edges across a layer, and nodes whose ids look like those of waypoints. -/
def lookalikes : Graph Unit :=
  empty.run [.addNode "a" (), .addNode "b" (), .addNode "c" (), .addNode "c:a:1" (),
    .addNode "c:a:1#3" (), .addNode "a" (), .addEdge 1 0, .addEdge 2 1, .addEdge 2 0, .addEdge 2 0,
    .assignLayers .strict]

/-- The numbers two and four are the first that are free. -/
theorem waypointIds_lookalikes :
    lookalikes.sorted = true ∧ lookalikes.waypointKeys = [] ∧
      WaypointIds lookalikes lookalikes.routeLongEdges.1 ∧
      lookalikes.routeLongEdges.1.waypointKeys.map lookalikes.routeLongEdges.1.idOf =
        ["c:a:1#2", "c:a:1#4"] := by
  have hsorted : lookalikes.sorted = true := by decide +kernel
  have hnone : lookalikes.waypointKeys = [] := by decide +kernel
  refine ⟨hsorted, hnone, ((Reachable.empty.run _).waypointIds_routeLongEdges hsorted hnone).2, ?_⟩
  decide +kernel

end JobGraph.Graph
