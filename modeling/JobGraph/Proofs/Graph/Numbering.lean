import JobGraph.Graph.Matrix
import JobGraph.Proofs.Graph.Operations

/-!
# Numbers of nodes

A matrix numbers the real nodes by rank or in the order of creation.  Both numbers have an invariant
that holds until a graph is routed.

* `Numbered`: the number of a node in the order of creation is its key.
* `Descending`: an edge between ranked nodes leads to a lower rank.  A layering establishes it, and
  only an operation that edits edges can break it.
-/

namespace JobGraph.Graph

variable {α : Type} {g g' : Graph α}

/-! ## What numbers are read from -/

theorem matrixPlace_of_bareNode?_eq {key : NodeKey} (h : g'.bareNode? key = g.bareNode? key)
    (indexing : MatrixIndexing) : g'.matrixPlace indexing key = g.matrixPlace indexing key := by
  cases indexing with
  | rank => exact rankOf_of_bareNode?_eq h
  | insertion =>
      have := congrArg (fun node => node.map Node.index) h
      simpa [bareNode?, matrixPlace, Function.comp_def, Node.withoutEdges] using this

theorem matrixPlace_insertion_of_clearLayout_eq (h : g'.clearLayout = g.clearLayout) :
    g'.matrixPlace .insertion = g.matrixPlace .insertion := by
  have hclear : ∀ (g : Graph α) (key : NodeKey),
      g.clearLayout.matrixPlace .insertion key = g.matrixPlace .insertion key := by
    intro g key
    simp [matrixPlace, node?_clearLayout, Function.comp_def]
  funext key
  rw [← hclear g', h, hclear]

/-- A change of a node that leaves its edges, kind, place and number alone. -/
theorem reads_modifyNode (g : Graph α) (key : NodeKey) {change : Node α → Node α}
    (hchange : ∀ node, (change node).parents = node.parents ∧
      (change node).isWaypoint = node.isWaypoint ∧ (change node).rank = node.rank ∧
      (change node).index = node.index) :
    (g.modifyNode key change).parentsOf = g.parentsOf ∧
      (g.modifyNode key change).isWaypoint = g.isWaypoint ∧
      (g.modifyNode key change).matrixPlace = g.matrixPlace := by
  refine ⟨?_, ?_, ?_⟩
  · funext other
    exact elim_modifyNode_of_same g key Node.parents [] (fun node => (hchange node).1) other
  · funext other
    exact elim_modifyNode_of_same g key Node.isWaypoint false (fun node => (hchange node).2.1) other
  · funext indexing other
    cases indexing with
    | rank =>
        show (g.modifyNode key change).rankOf other = g.rankOf other
        rw [rankOf_eq_elim, rankOf_eq_elim]
        exact elim_modifyNode_of_same g key Node.rank none (fun node => (hchange node).2.2.1) other
    | insertion =>
        show ((g.modifyNode key change).node? other).map Node.index =
          (g.node? other).map Node.index
        rw [node?_modifyNode]
        split
        · rw [Option.map_map]
          exact congrArg ((g.node? other).map ·) (funext fun node => (hchange node).2.2.2)
        · rfl

theorem reads_setData (g : Graph α) (key : NodeKey) (data : α) :
    (g.setData key data).parentsOf = g.parentsOf ∧
      (g.setData key data).isWaypoint = g.isWaypoint ∧
      (g.setData key data).matrixPlace = g.matrixPlace := by
  refine reads_modifyNode g key fun node => ?_
  cases hkind : node.kind <;> simp [Node.isWaypoint, Node.ends?, hkind]

theorem reads_setPosition (g : Graph α) (key : NodeKey) (position : Position) :
    (g.setPosition key position).parentsOf = g.parentsOf ∧
      (g.setPosition key position).isWaypoint = g.isWaypoint ∧
      (g.setPosition key position).matrixPlace = g.matrixPlace :=
  reads_modifyNode g key fun _ => ⟨rfl, rfl, rfl, rfl⟩

/-! ## Numbers and ranks before a routing -/

/-- As long as a graph is not routed, its nodes are numbered by their keys. -/
def Numbered (g : Graph α) : Prop :=
  g.routed = false → ∀ key < g.nodes.size, g.matrixPlace .insertion key = some key

/-- As long as a graph is not routed, edges between ranked nodes lead to lower ranks. -/
def Descending (g : Graph α) : Prop :=
  g.routed = false → ∀ key, ∀ parent ∈ g.parentsOf key, ∀ high low,
    g.rankOf key = some high → g.rankOf parent = some low → low < high

theorem Numbered.congr (h : Numbered g) (hrouted : g'.routed = g.routed)
    (hsize : g'.nodes.size = g.nodes.size)
    (hplace : g'.matrixPlace .insertion = g.matrixPlace .insertion) : Numbered g' := by
  intro hunrouted key hkey
  rw [hplace]
  exact h (hrouted ▸ hunrouted) key (hsize ▸ hkey)

theorem Descending.congr (h : Descending g) (hrouted : g'.routed = g.routed)
    (hparents : g'.parentsOf = g.parentsOf) (hrank : g'.rankOf = g.rankOf) : Descending g' := by
  intro hunrouted
  rw [hparents, hrank]
  exact h (hrouted ▸ hunrouted)

theorem numbered_empty : Numbered (empty : Graph α) :=
  fun _ key hkey => absurd hkey (Nat.not_lt_zero key)

theorem Numbered.addNode (h : Numbered g) (hlinked : Linked g) (id : String) (data : α) :
    Numbered (g.addNode id data) := by
  intro hunrouted key hkey
  have hnode : (g.addNode id data).node? key =
      if key = g.nodes.size then some (Node.new id (.real data) g.realKeys.length)
      else g.node? key := node?_of_push g rfl key
  have hsize : (g.addNode id data).nodes.size = g.nodes.size + 1 := by simp [Graph.addNode]
  show ((g.addNode id data).node? key).map Node.index = some key
  rw [hnode]
  split
  · rename_i hnew
    -- the new number is the number of real nodes, and all nodes are real
    have hlength : g.realKeys.length = g.nodes.size := by
      rw [hlinked.realKeys_eq_keys hunrouted, keys, List.length_range]
    rw [hnew, ← hlength]
    rfl
  · rename_i hold
    exact h hunrouted key (by omega)

theorem Numbered.addEdge (h : Numbered g) (dependent parent : NodeKey) :
    Numbered (g.addEdge dependent parent) :=
  h.congr (fields_addEdge g dependent parent).2.2.1 (by simp) (funext fun key =>
    matrixPlace_of_bareNode?_eq (bareNode?_addEdge g dependent parent key) .insertion)

theorem Numbered.removeEdge (h : Numbered g) (dependent parent : NodeKey) :
    Numbered (g.removeEdge dependent parent) :=
  h.congr (fields_removeEdge g dependent parent).2.2.1 (by simp) (funext fun key =>
    matrixPlace_of_bareNode?_eq (bareNode?_removeEdge g dependent parent key) .insertion)

theorem Numbered.assignLayers (h : Numbered g) (hlinked : Linked g) (policy : CyclePolicy) :
    Numbered (g.assignLayers policy).1 := by
  have heq := clearLayout_assignLayers hlinked policy
  have hrouted : (g.assignLayers policy).1.clearLayout.routed = g.clearLayout.routed := by rw [heq]
  exact h.congr hrouted (size_of_clearLayout_eq heq) (matrixPlace_insertion_of_clearLayout_eq heq)

/-- A layering leads every edge between ranked nodes down. -/
theorem Linked.descending_assignLayers (h : Linked g) (policy : CyclePolicy) :
    Descending (g.assignLayers policy).1 := by
  cases hrouted : g.routed with
  | true =>
      intro hunrouted
      rw [assignLayers, if_pos hrouted, hrouted] at hunrouted
      exact Bool.noConfusion hunrouted
  | false =>
      intro _ key parent hparent high low hhigh hlow
      rw [parentsOf_of_clearLayout_eq (clearLayout_assignLayers h policy)] at hparent
      rw [assignLayers_of_unrouted hrouted] at hhigh hlow
      split at hhigh
      · simp at hhigh
      · rename_i hsplit
        rw [if_neg hsplit] at hlow
        replace hhigh := (rankOf_compacted_iff h hrouted key high).1 hhigh
        replace hlow := (rankOf_compacted_iff h hrouted parent low).1 hlow
        rw [ranking_compacted h hrouted] at hhigh hlow
        exact rank_lt_of_parent h hrouted hhigh hlow hparent

/-- A routing that changes a graph leaves it routed. -/
theorem routeLongEdges_eq_or_routed (h : Consistent g) :
    g.routeLongEdges.1 = g ∨ g.routeLongEdges.1.routed = true := by
  cases hsorted : g.sorted with
  | false => exact .inl (by simp [routeLongEdges, hsorted])
  | true =>
      cases hrouted : g.routed with
      | true => exact .inl (by simp [routeLongEdges, hsorted, hrouted])
      | false =>
          obtain ⟨state, chains, heq, hsplitting, -⟩ :=
            exists_splitting_routeLongEdges h hsorted hrouted
          right
          rw [heq]
          exact hsplitting.routed_eq

theorem Numbered.routeLongEdges (h : Numbered g) (hconsistent : Consistent g) :
    Numbered g.routeLongEdges.1 := by
  rcases routeLongEdges_eq_or_routed hconsistent with heq | hrouted
  · rwa [heq]
  · exact fun hunrouted => absurd (hrouted.symm.trans hunrouted) nofun

theorem Descending.routeLongEdges (h : Descending g) (hconsistent : Consistent g) :
    Descending g.routeLongEdges.1 := by
  rcases routeLongEdges_eq_or_routed hconsistent with heq | hrouted
  · rwa [heq]
  · exact fun hunrouted => absurd (hrouted.symm.trans hunrouted) nofun

theorem Numbered.orderLayers (h : Numbered g) (sweeps : Nat) : Numbered (g.orderLayers sweeps).1 := by
  obtain ⟨layers, heq, -⟩ := g.orderLayers_fst sweeps
  rw [heq]
  exact h.congr rfl rfl rfl

theorem Descending.orderLayers (h : Descending g) (sweeps : Nat) :
    Descending (g.orderLayers sweeps).1 := by
  obtain ⟨layers, heq, -⟩ := g.orderLayers_fst sweeps
  rw [heq]
  exact h.congr rfl rfl rfl

/-- Every operation keeps keys and numbers together. -/
theorem Numbered.perform (h : Numbered g) (hconsistent : Consistent g) (operation : Operation α) :
    Numbered (g.perform operation) := by
  cases operation with
  | addNode id data => exact h.addNode hconsistent.toLinked id data
  | addEdge dependent parent => exact h.addEdge dependent parent
  | removeEdge dependent parent => exact h.removeEdge dependent parent
  | setData key data =>
      exact h.congr rfl (nodes_size_modifyNode _ _ _)
        (congrFun (reads_setData g key data).2.2 .insertion)
  | setPosition key position =>
      exact h.congr rfl (nodes_size_modifyNode _ _ _)
        (congrFun (reads_setPosition g key position).2.2 .insertion)
  | assignLayers policy => exact h.assignLayers hconsistent.toLinked policy
  | routeLongEdges => exact h.routeLongEdges hconsistent
  | orderLayers sweeps => exact h.orderLayers sweeps
  | layOut options =>
      refine hconsistent.layOut_induction ?_ ?_ ?_ options h
      · exact fun _ policy hc h => h.assignLayers hc.toLinked policy
      · exact fun _ hc h => h.routeLongEdges hc
      · exact fun _ sweeps h => h.orderLayers sweeps

/-- Whether an operation adds or removes an edge on behalf of its caller. -/
def Operation.editsEdges : Operation α → Bool
  | .addEdge _ _ => true
  | .removeEdge _ _ => true
  | _ => false

/-- Edges between ranked nodes lead down until edges are edited. -/
theorem Descending.perform (h : Descending g) (hconsistent : Consistent g)
    {operation : Operation α} (hkeeps : operation.editsEdges = false) :
    Descending (g.perform operation) := by
  cases operation with
  | addNode id data =>
      obtain ⟨hparents, -, hrank, -⟩ := g.reads_addNode id data
      exact h.congr rfl hparents hrank
  | addEdge dependent parent => exact absurd hkeeps nofun
  | removeEdge dependent parent => exact absurd hkeeps nofun
  | setData key data =>
      obtain ⟨hparents, -, hplace⟩ := g.reads_setData key data
      exact h.congr rfl hparents (congrFun hplace .rank)
  | setPosition key position =>
      obtain ⟨hparents, -, hplace⟩ := g.reads_setPosition key position
      exact h.congr rfl hparents (congrFun hplace .rank)
  | assignLayers policy => exact hconsistent.toLinked.descending_assignLayers policy
  | routeLongEdges => exact h.routeLongEdges hconsistent
  | orderLayers sweeps => exact h.orderLayers sweeps
  | layOut options =>
      refine hconsistent.layOut_induction ?_ ?_ ?_ options h
      · exact fun _ policy hc _ => hc.toLinked.descending_assignLayers policy
      · exact fun _ hc h => h.routeLongEdges hc
      · exact fun _ sweeps h => h.orderLayers sweeps

theorem Descending.run (h : Descending g) (hreachable : Reachable g) {operations : List (Operation α)}
    (hkeeps : ∀ operation ∈ operations, operation.editsEdges = false) :
    Descending (g.run operations) := by
  induction operations generalizing g with
  | nil => exact h
  | cons operation rest ih =>
      obtain ⟨hfirst, hrest⟩ := List.forall_mem_cons.1 hkeeps
      exact ih (h.perform hreachable.consistent hfirst) (hreachable.perform operation) hrest

theorem numbered_ofRecords (id : α → String) (parentIds : α → List String) (records : List α) :
    Numbered (ofRecords id parentIds records) := by
  refine (ofRecords_induction (P := fun g : Graph α => Consistent g ∧ Numbered g)
    ⟨consistent_empty, numbered_empty⟩ ?_ ?_ id parentIds records).2
  · exact fun _ id data ⟨hc, h⟩ => ⟨hc.addNode id data, h.addNode hc.toLinked id data⟩
  · exact fun _ dependent parent ⟨hc, h⟩ =>
      ⟨hc.addEdge dependent parent, h.addEdge dependent parent⟩

/-- **Numbers.**  The keys of a reachable graph are its numbers until it is routed. -/
theorem Reachable.numbered (h : Reachable g) : Numbered g := by
  induction h with
  | empty => exact numbered_empty
  | ofRecords id parentIds records => exact numbered_ofRecords id parentIds records
  | perform hreachable operation ih => exact ih.perform hreachable.consistent operation

end JobGraph.Graph
