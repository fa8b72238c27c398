import JobGraph.Proofs.Graph.Operations

/-!
# The ends of waypoints

A waypoint remembers the two ends of the edge that it bends.  Both are real nodes, `EndsReal`: only a
routing adds waypoints, it runs once, and the graph that it finds has real nodes only.  No operation
takes a real node away or changes what a waypoint remembers.
-/

namespace JobGraph.Graph

variable {α : Type} {g g' : Graph α}

/-- The edges that waypoints bend lead from real nodes to real nodes. -/
def EndsReal (g : Graph α) : Prop :=
  ∀ key source target, (g.node? key).bind Node.ends? = some (source, target) →
    source ∈ g.realKeys ∧ target ∈ g.realKeys

namespace EndsReal

theorem congr (h : EndsReal g)
    (hends : ∀ key, (g'.node? key).bind Node.ends? = (g.node? key).bind Node.ends?)
    (hreal : g'.realKeys = g.realKeys) : EndsReal g' := by
  intro key source target hkey
  rw [hends] at hkey
  rw [hreal]
  exact h key source target hkey

theorem addNode (h : EndsReal g) (id : String) (data : α) : EndsReal (g.addNode id data) := by
  have hnode : ∀ key, (g.addNode id data).node? key =
      if key = g.nodes.size then some (Node.new id (.real data) g.realKeys.length)
      else g.node? key := node?_of_push g rfl
  intro key source target hkey
  rw [hnode] at hkey
  split at hkey
  · exact absurd hkey nofun
  · obtain ⟨hsource, htarget⟩ := h key source target hkey
    exact ⟨List.mem_append_left _ hsource, List.mem_append_left _ htarget⟩

theorem addEdge (h : EndsReal g) (dependent parent : NodeKey) :
    EndsReal (g.addEdge dependent parent) :=
  h.congr (fun key => ends?_of_bareNode?_eq (bareNode?_addEdge g dependent parent key))
    (fields_addEdge g dependent parent).1

theorem removeEdge (h : EndsReal g) (dependent parent : NodeKey) :
    EndsReal (g.removeEdge dependent parent) :=
  h.congr (fun key => ends?_of_bareNode?_eq (bareNode?_removeEdge g dependent parent key))
    (fields_removeEdge g dependent parent).1

theorem modifyNode (h : EndsReal g) (key : NodeKey) {change : Node α → Node α}
    (hchange : ∀ node, (change node).ends? = node.ends?) : EndsReal (g.modifyNode key change) := by
  refine h.congr (fun other => ?_) rfl
  rw [node?_modifyNode]
  split
  · cases g.node? other with
    | none => rfl
    | some node => exact hchange node
  · rfl

theorem of_clearLayout_eq (h : EndsReal g) (heq : g'.clearLayout = g.clearLayout) :
    EndsReal g' := by
  -- what a waypoint remembers is no part of the layout
  have hends : ∀ (g : Graph α) (key : NodeKey),
      (g.clearLayout.node? key).bind Node.ends? = (g.node? key).bind Node.ends? := by
    intro g key
    rw [node?_clearLayout, Option.bind_map]
    rfl
  refine h.congr (fun key => ?_) (show g'.clearLayout.realKeys = g.clearLayout.realKeys by rw [heq])
  rw [← hends g', heq, hends]

/-- A waypoint that is new bends an edge of a graph without waypoints. -/
theorem routed (h : EndsReal g) (hlinked : Linked g) (hunrouted : g.routed = false)
    {chains : List Chain} (hrouted : Routed g g' chains) : EndsReal g' := by
  intro key source target hkey
  rw [hrouted.realKeys_eq]
  by_cases hold : key ∈ g.keys
  · rw [ends?_of_bareNode?_eq (hrouted.bareNode?_eq key hold)] at hkey
    exact h key source target hkey
  · have hnew : key ∈ g'.keys := by
      obtain ⟨node, hnode, -⟩ := Option.bind_eq_some_iff.1 hkey
      exact (mem_keys g' key).2 (Array.getElem?_eq_some_iff.1 hnode).1
    rw [hrouted.keys_eq, List.mem_append] at hnew
    obtain ⟨chain, hchain, hwaypoint⟩ := List.mem_flatMap.1 (hnew.resolve_left hold)
    rw [hrouted.ends chain hchain key hwaypoint, Option.some.injEq, Prod.mk.injEq] at hkey
    obtain ⟨rfl, rfl⟩ := hkey
    have hmem : chain.edge ∈ chains.map Chain.edge := List.mem_map_of_mem hchain
    rw [hlinked.realKeys_eq_keys hunrouted]
    exact hlinked.mem_keys_of_mem_edges
      (List.mem_filter.1 (hrouted.chains_perm.mem_iff.1 hmem)).1

theorem routeLongEdges (h : EndsReal g) (hconsistent : Consistent g) :
    EndsReal g.routeLongEdges.1 := by
  cases hsorted : g.sorted with
  | false => simpa [Graph.routeLongEdges, hsorted] using h
  | true =>
      cases hunrouted : g.routed with
      | true => simpa [Graph.routeLongEdges, hsorted, hunrouted] using h
      | false =>
          obtain ⟨state, chains, heq, hsplitting, hperm⟩ :=
            exists_splitting_routeLongEdges hconsistent hsorted hunrouted
          rw [heq]
          exact h.routed hconsistent.toLinked hunrouted
            (hsplitting.routed hperm hconsistent.markRouted.toLinked
              (hconsistent.waypointKeys_of_unrouted hunrouted)).of_markRouted

theorem orderLayers (h : EndsReal g) (sweeps : Nat) : EndsReal (g.orderLayers sweeps).1 := by
  obtain ⟨layers, heq, -⟩ := g.orderLayers_fst sweeps
  rw [heq]
  exact h.congr (fun _ => rfl) rfl

theorem perform (h : EndsReal g) (hconsistent : Consistent g) (operation : Operation α) :
    EndsReal (g.perform operation) := by
  have hassign : ∀ (g : Graph α) (policy : CyclePolicy), Consistent g → EndsReal g →
      EndsReal (g.assignLayers policy).1 :=
    fun g policy hconsistent h =>
      h.of_clearLayout_eq (clearLayout_assignLayers hconsistent.toLinked policy)
  cases operation with
  | addNode id data => exact h.addNode id data
  | addEdge dependent parent => exact h.addEdge dependent parent
  | removeEdge dependent parent => exact h.removeEdge dependent parent
  | setData key data =>
      refine h.modifyNode key fun node => ?_
      cases hkind : node.kind <;> simp [Node.ends?, hkind]
  | setPosition key position => exact h.modifyNode key fun _ => rfl
  | assignLayers policy => exact hassign g policy hconsistent h
  | routeLongEdges => exact h.routeLongEdges hconsistent
  | orderLayers sweeps => exact h.orderLayers sweeps
  | layOut options =>
      exact hconsistent.layOut_induction hassign (fun _ hconsistent h => h.routeLongEdges hconsistent)
        (fun _ sweeps h => h.orderLayers sweeps) options h

end EndsReal

theorem Reachable.endsReal (h : Reachable g) : EndsReal g := by
  induction h with
  | empty => exact fun _ _ _ hkey => absurd hkey (by simp [Graph.empty, node?])
  | ofRecords id parentIds records =>
      refine ofRecords_induction ?_ (fun _ id data h => h.addNode id data)
        (fun _ dependent parent h => h.addEdge dependent parent) id parentIds records
      exact fun _ _ _ hkey => absurd hkey (by simp [Graph.empty, node?])
  | perform h operation ih => exact ih.perform h.consistent operation

end JobGraph.Graph
