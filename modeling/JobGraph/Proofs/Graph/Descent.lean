import JobGraph.Proofs.Graph.Refusals

/-!
# Edges that lead down

A layering places every node above its parents.  Edges that are added or removed later do not touch
the layers, and the graph still counts as sorted.  So a new edge may lead up or sideways, and it is
the next layering that repairs this, not the edit.

`misdrawn` follows the operations and collects these edges: those that did not lead down when they
were added, since the last layering that succeeded.  Nothing else spoils an edge.  New nodes have no
layer, old ones keep theirs, and the chains that take the place of long edges lead down step by
step.
-/

namespace JobGraph.Graph

variable {α : Type} {g g' : Graph α} {earlier : List Edge}

/-! ## Leading down -/

/-- An edge from a node that has a layer leads to a node that has a lower one. -/
def Descends (g : Graph α) (edge : Edge) : Prop :=
  ∀ high ∈ g.layerOf edge.dependent, ∃ low ∈ g.layerOf edge.parent, low < high

instance (g : Graph α) (edge : Edge) : Decidable (g.Descends edge) :=
  inferInstanceAs (Decidable (∀ high ∈ g.layerOf edge.dependent,
    ∃ low ∈ g.layerOf edge.parent, low < high))

theorem descends_congr {edge : Edge}
    (hdependent : g'.layerOf edge.dependent = g.layerOf edge.dependent)
    (hparent : g'.layerOf edge.parent = g.layerOf edge.parent) :
    g'.Descends edge ↔ g.Descends edge := by
  rw [Descends, Descends, hdependent, hparent]

/-! ## Misdrawn edges -/

/-- The edges that do not lead down after an operation, given those before it.  Only an edge that is
added can be one of them, and a layering that succeeds leaves none. -/
def misdrawnAfter (g : Graph α) (earlier : List Edge) : Operation α → List Edge
  | .addEdge dependent parent =>
      earlier ++ if g.has dependent ∧ g.has parent ∧ ¬ g.Descends ⟨dependent, parent⟩
        then [⟨dependent, parent⟩] else []
  | .assignLayers policy =>
      match (g.assignLayers policy).2 with
      | .ok _ => []
      | .error _ => earlier
  | .layOut options =>
      match (g.layOut options).2 with
      | .ok _ => []
      | .error _ => earlier
  | _ => earlier

theorem mem_misdrawnAfter_addEdge {dependent parent : NodeKey} {edge : Edge} :
    edge ∈ g.misdrawnAfter earlier (.addEdge dependent parent) ↔
      edge ∈ earlier ∨
        (g.has dependent ∧ g.has parent ∧ ¬ g.Descends ⟨dependent, parent⟩) ∧
          edge = ⟨dependent, parent⟩ := by
  rw [misdrawnAfter, List.mem_append, List.mem_ite_nil_right, List.mem_singleton]

/-- The edges that do not lead down after some operations. -/
def misdrawn (g : Graph α) (earlier : List Edge) : List (Operation α) → List Edge
  | [] => earlier
  | operation :: rest => (g.perform operation).misdrawn (g.misdrawnAfter earlier operation) rest

/-- All edges but these lead down, and these join nodes and do not. -/
structure DrawnBut (misdrawn : List Edge) (g : Graph α) : Prop where
  mem_of_not_descends : ∀ edge ∈ g.edges, ¬ g.Descends edge → edge ∈ misdrawn
  of_mem : ∀ edge ∈ misdrawn,
    edge.dependent ∈ g.keys ∧ edge.parent ∈ g.keys ∧ ¬ g.Descends edge

namespace DrawnBut

/-- Old nodes keep their layers, and new edges lead down. -/
theorem mono (h : DrawnBut earlier g) (hlinked : Linked g)
    (hkeys : ∀ key ∈ g.keys, key ∈ g'.keys ∧ g'.layerOf key = g.layerOf key)
    (hedges : ∀ edge ∈ g'.edges, edge ∈ g.edges ∨ g'.Descends edge) : DrawnBut earlier g' := by
  have hsame : ∀ edge : Edge, edge.dependent ∈ g.keys → edge.parent ∈ g.keys →
      (g'.Descends edge ↔ g.Descends edge) := by
    intro edge hdependent hparent
    exact descends_congr (hkeys _ hdependent).2 (hkeys _ hparent).2
  constructor
  · intro edge hedge hnot
    rcases hedges edge hedge with hold | hdescends
    · obtain ⟨hdependent, hparent⟩ := hlinked.mem_keys_of_mem_edges hold
      apply h.mem_of_not_descends edge hold
      exact mt (hsame edge hdependent hparent).2 hnot
    · exact absurd hdescends hnot
  · intro edge hedge
    obtain ⟨hdependent, hparent, hnot⟩ := h.of_mem edge hedge
    exact ⟨(hkeys _ hdependent).1, (hkeys _ hparent).1,
      mt (hsame edge hdependent hparent).1 hnot⟩

/-- Whatever leaves edges and layers as they are. -/
theorem congr (h : DrawnBut earlier g) (hlinked : Linked g)
    (hkeys : ∀ key ∈ g.keys, key ∈ g'.keys) (hparents : g'.parentsOf = g.parentsOf)
    (hlayers : g'.layerOf = g.layerOf) : DrawnBut earlier g' := by
  apply h.mono hlinked
  · intro key hkey
    exact ⟨hkeys key hkey, congrFun hlayers key⟩
  · intro edge hedge
    exact .inl ((edges_perm_of_parentsOf_eq hparents).mem_iff.1 hedge)

theorem addNode (h : DrawnBut earlier g) (hlinked : Linked g) (id : String) (data : α) :
    DrawnBut earlier (g.addNode id data) := by
  obtain ⟨hparents, -, -, hlayers⟩ := g.reads_addNode id data
  have hkeys : ∀ key ∈ g.keys, key ∈ (g.addNode id data).keys := by
    intro key hkey
    rw [keys_addNode]
    exact List.mem_append_left _ hkey
  exact h.congr hlinked hkeys hparents hlayers

theorem modifyNode (h : DrawnBut earlier g) (hlinked : Linked g) (key : NodeKey)
    {change : Node α → Node α} (hparents : ∀ node, (change node).parents = node.parents)
    (hlayer : ∀ node, (change node).layer = node.layer) :
    DrawnBut earlier (g.modifyNode key change) := by
  apply h.congr hlinked
  · intro other hother
    rwa [mem_keys, nodes_size_modifyNode, ← mem_keys]
  · funext other
    exact elim_modifyNode_of_same g key Node.parents [] hparents other
  · funext other
    rw [layerOf_eq_elim, layerOf_eq_elim]
    exact elim_modifyNode_of_same g key Node.layer none hlayer other

theorem removeEdge (h : DrawnBut earlier g) (hlinked : Linked g) (dependent parent : NodeKey) :
    DrawnBut earlier (g.removeEdge dependent parent) := by
  by_cases hparent : parent ∈ g.parentsOf dependent
  · apply h.mono hlinked
    · intro key hkey
      rw [mem_keys, nodes_size_removeEdge, ← mem_keys]
      exact ⟨hkey, layerOf_of_bareNode?_eq (g.bareNode?_removeEdge dependent parent key)⟩
    · intro edge hedge
      exact .inl ((edges_removeEdge_perm hparent).mem_iff.2 (List.mem_cons_of_mem _ hedge))
  · rwa [g.removeEdge_of_not_mem hparent]

/-- An edge that is added may be one more that does not lead down. -/
theorem addEdge (h : DrawnBut earlier g) (dependent parent : NodeKey) :
    DrawnBut (g.misdrawnAfter earlier (.addEdge dependent parent))
      (g.addEdge dependent parent) := by
  by_cases hends : dependent < g.nodes.size ∧ parent < g.nodes.size
  · have hsame : ∀ edge : Edge, (g.addEdge dependent parent).Descends edge ↔ g.Descends edge := by
      intro edge
      apply descends_congr
      · exact layerOf_of_bareNode?_eq (g.bareNode?_addEdge dependent parent edge.dependent)
      · exact layerOf_of_bareNode?_eq (g.bareNode?_addEdge dependent parent edge.parent)
    have hkeys : (g.addEdge dependent parent).keys = g.keys := by
      rw [keys, keys, nodes_size_addEdge]
    constructor
    · intro edge hedge hnot
      rw [hsame] at hnot
      rw [mem_misdrawnAfter_addEdge]
      have hcases := (edges_addEdge_perm hends.1 hends.2).mem_iff.1 hedge
      rcases List.mem_cons.1 hcases with rfl | hold
      · exact .inr ⟨⟨decide_eq_true hends.1, decide_eq_true hends.2, hnot⟩, rfl⟩
      · exact .inl (h.mem_of_not_descends edge hold hnot)
    · intro edge hedge
      rw [hkeys, hsame]
      rcases mem_misdrawnAfter_addEdge.1 hedge with hold | ⟨⟨-, -, hnot⟩, rfl⟩
      · exact h.of_mem edge hold
      · rw [mem_keys, mem_keys]
        exact ⟨hends.1, hends.2, hnot⟩
  · have hnone : ¬ (g.has dependent ∧ g.has parent ∧ ¬ g.Descends ⟨dependent, parent⟩) := by
      rintro ⟨hdependent, hparent, -⟩
      exact hends ⟨of_decide_eq_true hdependent, of_decide_eq_true hparent⟩
    rw [g.addEdge_of_not_lt hends, misdrawnAfter, if_neg hnone, List.append_nil]
    exact h

end DrawnBut

/-! ## Layouts -/

/-- After a layering all edges lead down. -/
theorem Reachable.drawnBut_assignLayers (h : Reachable g) {policy : CyclePolicy}
    {report : LayeringReport} (hok : g.assignLayers policy = (g', .ok report)) :
    DrawnBut [] g' := by
  have hlayered := h.layered_assignLayers hok
  have hdescends : ∀ edge ∈ g'.edges, g'.Descends edge := by
    intro edge hedge high hhigh
    have hparent := mem_edges_iff.1 hedge
    rw [parentsOf_of_clearLayout_eq hlayered.clearLayout_eq] at hparent
    obtain ⟨low, hlt, hlow⟩ :=
      hlayered.parent_layer_lt edge.dependent high hhigh edge.parent hparent
    exact ⟨low, hlow, hlt⟩
  constructor
  · intro edge hedge hnot
    exact absurd (hdescends edge hedge) hnot
  · intro edge hedge
    exact absurd hedge List.not_mem_nil

/-- The steps of a chain drop one layer each. -/
theorem Routed.descends_of_mem_steps {chains : List Chain} (h : Routed g g' chains)
    (hlinked : Linked g) {chain : Chain} (hchain : chain ∈ chains) {edge : Edge}
    (hedge : edge ∈ chain.steps) : g'.Descends edge := by
  obtain ⟨hdependent, hparent⟩ := Splitting.mem_keys_of_chain h.chains_perm hlinked hchain
  obtain ⟨high, low, hhigh, hlow, hwaypoints⟩ := h.layerOf_waypoints chain hchain
  obtain ⟨_, _, hhigh', hlow', hlong⟩ :=
    isLong_iff.1 (Splitting.isLong_of_chain h.chains_perm hchain).2
  obtain rfl := Option.some.inj (hhigh.symm.trans hhigh')
  obtain rfl := Option.some.inj (hlow.symm.trans hlow')
  -- the ends of the chain are old nodes, which keep their layers
  have hfirst : g'.layerOf chain.edge.dependent = some (low + (high - low - 1) + 1) := by
    rw [layerOf_of_bareNode?_eq (h.bareNode?_eq _ hdependent), hhigh]
    congr 1
    omega
  have hlast : g'.layerOf chain.edge.parent = some low := by
    rw [layerOf_of_bareNode?_eq (h.bareNode?_eq _ hparent), hlow]
  obtain ⟨layer, hupper, hlower⟩ := layer_of_mem_pathEdges hwaypoints hfirst hlast edge hedge
  intro high hhigh
  obtain rfl := Option.some.inj (hupper.symm.trans hhigh)
  exact ⟨layer, hlower, Nat.lt_succ_self layer⟩

/-- A routing puts chains in the place of long edges. -/
theorem Reachable.drawnBut_routeLongEdges (h : Reachable g)
    (hdrawn : g.sorted = true → DrawnBut earlier g) (hsorted : g.routeLongEdges.1.sorted = true) :
    DrawnBut earlier g.routeLongEdges.1 := by
  rw [sorted_routeLongEdges] at hsorted
  cases hrouted : g.routed with
  | true =>
      rw [routeLongEdges_of_routed hsorted hrouted]
      exact hdrawn hsorted
  | false =>
      obtain ⟨routed, chains, heq, hchains, -⟩ := h.routed_routeLongEdges hsorted hrouted
      rw [heq]
      apply (hdrawn hsorted).mono h.consistent.toLinked
      · intro key hkey
        rw [hchains.keys_eq]
        exact ⟨List.mem_append_left _ hkey,
          layerOf_of_bareNode?_eq (hchains.bareNode?_eq key hkey)⟩
      · -- an edge of the routed graph is a short old one or a step of a chain
        intro edge hedge
        rcases List.mem_append.1 (hchains.edges_perm.mem_iff.1 hedge) with hold | hstep
        · exact .inl (List.mem_filter.1 hold).1
        · obtain ⟨chain, hchain, hstep⟩ := List.mem_flatMap.1 hstep
          exact .inr (hchains.descends_of_mem_steps h.consistent.toLinked hchain hstep)

theorem DrawnBut.orderLayers (h : DrawnBut earlier g) (sweeps : Nat) :
    DrawnBut earlier (g.orderLayers sweeps).1 := by
  obtain ⟨layers, heq, -⟩ := g.orderLayers_fst sweeps
  rw [heq]
  exact ⟨h.mem_of_not_descends, h.of_mem⟩

/-- A layering that fails leaves a sorted graph only where it was refused. -/
theorem drawnBut_of_error {policy : CyclePolicy} {error : GraphError}
    (hfails : (g.assignLayers policy).2 = .error error)
    (hdrawn : g.sorted = true → DrawnBut earlier g)
    (hsorted : (g.assignLayers policy).1.sorted = true) :
    DrawnBut earlier (g.assignLayers policy).1 := by
  rcases assignLayers_eq_of_error hfails with ⟨-, heq⟩ | ⟨-, ids, heq⟩
  · rw [heq] at hsorted ⊢
    exact hdrawn hsorted
  · rw [heq] at hsorted
    exact absurd hsorted Bool.false_ne_true

/-- A layout that succeeds leaves only edges that lead down. -/
theorem Reachable.drawnBut_layOut (h : Reachable g) {options : LayoutOptions}
    {report : LayeringReport} (hlaid : LaidOut g options report g') : DrawnBut [] g' := by
  obtain ⟨layered, routed, hok, hrouting, hordering⟩ := hlaid.steps
  have hlayered : DrawnBut [] layered := h.drawnBut_assignLayers hok
  have hrouted : DrawnBut [] routed := by
    split at hrouting
    · obtain ⟨count, heq⟩ := hrouting
      have hreachable : Reachable layered := by
        have hperformed := h.perform (.assignLayers options.cyclePolicy)
        rwa [Graph.perform, hok] at hperformed
      have hkept := hreachable.drawnBut_routeLongEdges fun _ => hlayered
      rw [heq] at hkept
      refine hkept ?_
      have hsorted := sorted_routeLongEdges layered
      rw [heq] at hsorted
      rw [hsorted]
      exact (h.consistent.toLinked.sorted_of_assignLayers_eq_ok hok).1
    · rw [hrouting]
      exact hlayered
  split at hordering
  · have hordered := hrouted.orderLayers options.sweeps
    rwa [hordering] at hordered
  · rwa [hordering]

/-! ## Every run -/

/-- One operation keeps the edges of a sorted graph leading down, but for those misdrawn. -/
theorem Reachable.drawnBut_perform (h : Reachable g) (hdrawn : g.sorted = true → DrawnBut earlier g)
    (operation : Operation α) (hsorted : (g.perform operation).sorted = true) :
    DrawnBut (g.misdrawnAfter earlier operation) (g.perform operation) := by
  have hlinked := h.consistent.toLinked
  cases operation with
  | addNode id data => exact (hdrawn hsorted).addNode hlinked id data
  | addEdge dependent parent =>
      rw [Graph.perform, sorted_addEdge] at hsorted
      exact (hdrawn hsorted).addEdge dependent parent
  | removeEdge dependent parent =>
      rw [Graph.perform, sorted_removeEdge] at hsorted
      exact (hdrawn hsorted).removeEdge hlinked dependent parent
  | setData key data =>
      refine (hdrawn hsorted).modifyNode hlinked key (fun node => ?_) fun node => ?_
      · cases node.kind <;> rfl
      · cases node.kind <;> rfl
  | setPosition key position =>
      exact (hdrawn hsorted).modifyNode hlinked key (fun _ => rfl) fun _ => rfl
  | assignLayers policy =>
      rw [Graph.perform] at hsorted ⊢
      cases hanswer : (g.assignLayers policy).2 with
      | ok report =>
          rw [misdrawnAfter, hanswer]
          exact h.drawnBut_assignLayers (Prod.ext rfl hanswer)
      | error error =>
          rw [misdrawnAfter, hanswer]
          exact drawnBut_of_error hanswer hdrawn hsorted
  | routeLongEdges => exact h.drawnBut_routeLongEdges hdrawn hsorted
  | orderLayers sweeps =>
      obtain ⟨layers, heq, -⟩ := g.orderLayers_fst sweeps
      rw [Graph.perform, heq] at hsorted
      exact (hdrawn hsorted).orderLayers sweeps
  | layOut options =>
      rw [Graph.perform] at hsorted ⊢
      rcases h.consistent.layOut_cases options with ⟨error, hanswer, heq⟩ | ⟨report, heq, -, hlaid⟩
      · rw [heq] at hsorted ⊢
        rw [misdrawnAfter, heq, hanswer]
        exact drawnBut_of_error hanswer hdrawn hsorted
      · rw [misdrawnAfter, heq]
        exact h.drawnBut_layOut hlaid

theorem Reachable.drawnBut_run (h : Reachable g) (hdrawn : g.sorted = true → DrawnBut earlier g)
    (operations : List (Operation α)) (hsorted : (g.run operations).sorted = true) :
    DrawnBut (g.misdrawn earlier operations) (g.run operations) := by
  induction operations generalizing g earlier with
  | nil => exact hdrawn hsorted
  | cons operation rest ih =>
      exact ih (h.perform operation) (h.drawnBut_perform hdrawn operation) hsorted

theorem sorted_ofRecords (id : α → String) (parentIds : α → List String) (records : List α) :
    (ofRecords id parentIds records).sorted = false :=
  ofRecords_induction (P := fun g => g.sorted = false) rfl (fun _ _ _ h => h)
    (fun g dependent parent h => (g.sorted_addEdge dependent parent).trans h) id parentIds records

/-- **Edges lead down.**  Whatever is done to a graph of records, of which there may be none: while
it counts as sorted, the edges that do not lead down are those misdrawn since the last layering that
succeeded. -/
theorem descends_iff_of_run (id : α → String) (parentIds : α → List String) (records : List α)
    {operations : List (Operation α)}
    (hsorted : ((ofRecords id parentIds records).run operations).sorted = true) :
    ∀ edge ∈ ((ofRecords id parentIds records).run operations).edges,
      ((ofRecords id parentIds records).run operations).Descends edge ↔
        edge ∉ (ofRecords id parentIds records).misdrawn [] operations := by
  have hreachable : Reachable (ofRecords id parentIds records) := .ofRecords id parentIds records
  have hstart : (ofRecords id parentIds records).sorted = true →
      DrawnBut [] (ofRecords id parentIds records) := by
    intro hsorted
    rw [sorted_ofRecords] at hsorted
    exact absurd hsorted Bool.false_ne_true
  have hdrawn := hreachable.drawnBut_run hstart operations hsorted
  intro edge hedge
  constructor
  · exact fun hdescends hmem => (hdrawn.of_mem edge hmem).2.2 hdescends
  · intro hnot
    by_contra hdescends
    exact hnot (hdrawn.mem_of_not_descends edge hedge hdescends)

/-- A node, another one that depends on it, and a third one. -/
def trio : Graph (String × List String) :=
  ofRecords Prod.fst Prod.snd [("a", []), ("b", ["a"]), ("c", [])]

/-- After the layering two edges to the third node are added: one leads down, the other sideways. -/
def afterthoughts : List (Operation (String × List String)) :=
  [.assignLayers .lenient, .addEdge 1 2, .addEdge 0 2]

theorem descends_iff_afterthoughts :
    (trio.run afterthoughts).sorted = true ∧
      (∀ edge ∈ (trio.run afterthoughts).edges,
        (trio.run afterthoughts).Descends edge ↔ edge ∉ trio.misdrawn [] afterthoughts) ∧
      trio.misdrawn [] afterthoughts = [⟨0, 2⟩] := by
  have hsorted : (trio.run afterthoughts).sorted = true := by decide +kernel
  exact ⟨hsorted, descends_iff_of_run Prod.fst Prod.snd _ hsorted, by decide +kernel⟩

/-- The graph counts as sorted, and yet not every edge leads down. -/
theorem not_descends_afterthoughts :
    (trio.run afterthoughts).sorted = true ∧
      ∃ edge ∈ (trio.run afterthoughts).edges, ¬ (trio.run afterthoughts).Descends edge := by
  decide +kernel

end JobGraph.Graph
