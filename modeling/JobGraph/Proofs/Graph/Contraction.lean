import JobGraph.Graph.Matrix
import JobGraph.Proofs.Graph.EdgeCounts
import JobGraph.Proofs.Graph.RoutedEdges

/-!
# Edges with their waypoints passed over

An edge that leaves a real node leads to a real node in the end, over a chain of waypoints or none.
The straightened edges are all that a matrix counts.

* In a graph without waypoints they are the edges themselves.
* Routing keeps them up to order: of the steps of a chain only the first leaves a real node, and it
  is followed to the parent of the edge that the chain stands for.
-/

namespace JobGraph.Graph

open scoped List

variable {α : Type} {g g' : Graph α}

/-- The edge between real nodes that begins with a given edge, if that one leaves a real node. -/
def straighten (g : Graph α) (edge : Edge) : Option Edge :=
  if g.isWaypoint edge.dependent then none
  else (g.resolve edge.parent).map (Edge.mk edge.dependent)

/-- The edges between real nodes, waypoints passed over. -/
def straightEdges (g : Graph α) : List Edge :=
  g.edges.filterMap g.straighten

/-- The cell of an edge between two real nodes that have a number. -/
def cellOf (g : Graph α) (indexing : MatrixIndexing) (edge : Edge) : Option (Nat × Nat) := do
  let dependent ← g.matrixPlace indexing edge.dependent
  let parent ← g.matrixPlace indexing edge.parent
  some (dependent, parent)

theorem cellOf_eq_some_iff {indexing : MatrixIndexing} {edge : Edge} {i j : Nat} :
    g.cellOf indexing edge = some (i, j) ↔
      g.matrixPlace indexing edge.dependent = some i ∧
        g.matrixPlace indexing edge.parent = some j := by
  unfold cellOf
  cases g.matrixPlace indexing edge.dependent <;>
    cases g.matrixPlace indexing edge.parent <;> simp

/-! ## What a matrix counts -/

theorem matrixCells_eq (g : Graph α) (indexing : MatrixIndexing) {key : NodeKey}
    (hreal : g.isWaypoint key = false) :
    g.matrixCells indexing key = (((g.parentsOf key).map (Edge.mk key)).filterMap
      g.straighten).filterMap (g.cellOf indexing) := by
  rw [List.filterMap_filterMap, List.filterMap_map, matrixCells]
  cases hplace : g.matrixPlace indexing key with
  | none =>
      symm
      rw [List.filterMap_eq_nil_iff]
      intro parent _
      cases hresolve : g.resolve parent <;> simp [straighten, hreal, hresolve, cellOf, hplace]
  | some dependent =>
      refine List.filterMap_congr fun parent _ => ?_
      cases hresolve : g.resolve parent <;> simp [straighten, hreal, hresolve, cellOf, hplace]

theorem flatMap_matrixCells (h : Linked g) (indexing : MatrixIndexing) :
    g.realKeys.flatMap (g.matrixCells indexing) =
      g.straightEdges.filterMap (g.cellOf indexing) := by
  rw [h.realKeys_eq, straightEdges, edges, List.filterMap_flatMap, List.filterMap_flatMap]
  induction g.keys with
  | nil => rfl
  | cons key rest ih =>
      cases hkey : g.isWaypoint key with
      | false =>
          rw [List.filter_cons_of_pos (by simp [hkey]), List.flatMap_cons, ih, List.flatMap_cons,
            matrixCells_eq g indexing hkey]
      | true =>
          -- edges that leave a waypoint are steps of a chain that was entered before
          have hnone : ((g.parentsOf key).map (Edge.mk key)).filterMap g.straighten = [] := by
            rw [List.filterMap_eq_nil_iff]
            intro edge hedge
            obtain ⟨parent, -, rfl⟩ := List.mem_map.1 hedge
            rw [straighten, if_pos hkey]
          rw [List.filter_cons_of_neg (by simp [hkey]), ih, List.flatMap_cons, hnone,
            List.filterMap_nil, List.nil_append]

/-- A matrix counts the straightened edges between real nodes that have a number. -/
theorem matrix_eq_tally (h : Linked g) (indexing : Option MatrixIndexing) :
    g.matrix indexing =
      .tally (indexing.getD g.defaultIndexing) g.realKeys.length
        (g.straightEdges.filterMap (g.cellOf (indexing.getD g.defaultIndexing))) := by
  rw [← DependencyMatrix.foldl_count_zero, ← flatMap_matrixCells h]
  rfl

/-! ## Without waypoints -/

theorem resolve_of_isWaypoint_eq_false {key : NodeKey} (h : g.isWaypoint key = false) :
    g.resolve key = some key := by
  rw [resolve, resolveFrom, h]
  rfl

/-- An edge between real nodes is straight. -/
theorem straighten_of_real {edge : Edge} (hdependent : g.isWaypoint edge.dependent = false)
    (hparent : g.isWaypoint edge.parent = false) : g.straighten edge = some edge := by
  rw [straighten, if_neg (by simp [hdependent]), resolve_of_isWaypoint_eq_false hparent]
  rfl

theorem Linked.isWaypoint_of_unrouted (h : Linked g) (hunrouted : g.routed = false) (key : NodeKey) :
    g.isWaypoint key = false := by
  rcases Nat.lt_or_ge key g.nodes.size with hkey | hkey
  · have hreal := (h.mem_realKeys_iff hunrouted).2 hkey
    rw [h.realKeys_eq, List.mem_filter] at hreal
    simpa using hreal.2
  · exact g.isWaypoint_of_le hkey

theorem straightEdges_of_unrouted (h : Linked g) (hunrouted : g.routed = false) :
    g.straightEdges = g.edges := by
  unfold straightEdges
  have hall : ∀ edge ∈ g.edges, g.straighten edge = some edge := fun edge _ =>
    straighten_of_real (h.isWaypoint_of_unrouted hunrouted _) (h.isWaypoint_of_unrouted hunrouted _)
  rw [List.filterMap_congr hall, List.filterMap_some]

/-! ## Along a chain -/

/-- A walk along first parents goes over waypoints to the real node at the end of the path. -/
theorem resolveFrom_of_path {first last : NodeKey} {path : List NodeKey} {fuel : Nat}
    (hfuel : path.length + 1 < fuel) (hlast : g.isWaypoint last = false)
    (hsteps : ∀ edge ∈ pathEdges first (path ++ [last]),
      g.isWaypoint edge.dependent = true ∧
        (g.parentsOf edge.dependent).head? = some edge.parent) :
    g.resolveFrom fuel first = some last := by
  induction path generalizing first fuel with
  | nil =>
      obtain ⟨fuel, rfl⟩ : ∃ n, fuel = n + 2 := ⟨fuel - 2, by simp at hfuel; omega⟩
      obtain ⟨hwaypoint, hhead⟩ := hsteps ⟨first, last⟩ (by simp [pathEdges])
      rw [resolveFrom, if_pos hwaypoint, hhead, Option.bind_some, resolveFrom, hlast]
      rfl
  | cons next rest ih =>
      obtain ⟨fuel, rfl⟩ : ∃ n, fuel = n + 1 := ⟨fuel - 1, by omega⟩
      rw [List.length_cons] at hfuel
      rw [List.cons_append, pathEdges, List.forall_mem_cons] at hsteps
      obtain ⟨⟨hwaypoint, hhead⟩, hrest⟩ := hsteps
      rw [resolveFrom, if_pos hwaypoint, hhead, Option.bind_some]
      exact ih (by omega) hrest

section Routed

variable {chains : List Chain} (h : Routed g g' chains)

include h

theorem Routed.parentsOf_eq_of_step {chain : Chain} (hchain : chain ∈ chains) {edge : Edge}
    (hstep : edge ∈ chain.steps) (hwaypoint : edge.dependent ∈ g'.waypointKeys) :
    g'.parentsOf edge.dependent = [edge.parent] := by
  have hedge : edge ∈ g'.edges := by
    rw [h.edges_perm.mem_iff]
    exact List.mem_append_right _ (List.mem_flatMap.2 ⟨chain, hchain, hstep⟩)
  have hmem := mem_edges_iff.1 hedge
  obtain ⟨parent, hparent⟩ := List.length_eq_one_iff.1 (h.length_parentsOf _ hwaypoint)
  rw [hparent, List.mem_singleton] at hmem
  rw [hparent, hmem]

theorem Routed.length_waypoints_le {chain : Chain} (hchain : chain ∈ chains) :
    chain.waypoints.length ≤ g'.nodes.size := by
  have hkeys := congrArg List.length h.keys_eq
  have hle : chain.waypoints.length ≤ (chains.flatMap Chain.waypoints).length :=
    (List.sublist_flatten_of_mem (List.mem_map_of_mem hchain)).length_le
  simp only [keys, List.length_append, List.length_range] at hkeys
  omega

/-- A waypoint of a chain is one, and its only parent is the next node of the chain. -/
theorem Routed.step_of_waypoint {chain : Chain} (hchain : chain ∈ chains) {edge : Edge}
    (hstep : edge ∈ chain.steps) (hwaypoint : edge.dependent ∈ chain.waypoints) :
    g'.isWaypoint edge.dependent = true ∧
      (g'.parentsOf edge.dependent).head? = some edge.parent := by
  have hkey : edge.dependent ∈ g'.waypointKeys := by
    rw [h.waypointKeys_eq]
    exact List.mem_flatMap.2 ⟨chain, hchain, hwaypoint⟩
  constructor
  · obtain ⟨node, hnode, hends⟩ := Option.bind_eq_some_iff.1 (h.ends chain hchain _ hwaypoint)
    rw [isWaypoint, hnode, Option.elim_some, Node.isWaypoint, hends]
    rfl
  · rw [h.parentsOf_eq_of_step hchain hstep hkey]
    rfl

variable (hlinked : Linked g) (hunrouted : g.routed = false)

include hlinked hunrouted

theorem Routed.isWaypoint_of_mem_keys {key : NodeKey} (hkey : key ∈ g.keys) :
    g'.isWaypoint key = false := by
  rw [isWaypoint_of_bareNode?_eq (h.bareNode?_eq key hkey)]
  exact hlinked.isWaypoint_of_unrouted hunrouted key

/-- The first step of a chain is followed to the parent of its edge, and no other step counts. -/
theorem Routed.filterMap_steps {chain : Chain} (hchain : chain ∈ chains) :
    chain.steps.filterMap g'.straighten = [chain.edge] := by
  have hedge : chain.edge ∈ g.edges :=
    (List.mem_filter.1 (h.chains_perm.mem_iff.1 (List.mem_map_of_mem hchain))).1
  obtain ⟨hdependent, hparent⟩ := hlinked.mem_keys_of_mem_edges hedge
  replace hdependent := h.isWaypoint_of_mem_keys hlinked hunrouted hdependent
  replace hparent := h.isWaypoint_of_mem_keys hlinked hunrouted hparent
  have hstep : ∀ edge ∈ chain.steps, edge.dependent ∈ chain.waypoints →
      g'.isWaypoint edge.dependent = true ∧
        (g'.parentsOf edge.dependent).head? = some edge.parent :=
    fun edge => h.step_of_waypoint hchain
  have hlength := h.length_waypoints_le hchain
  unfold Chain.steps at hstep ⊢
  cases hwaypoints : chain.waypoints with
  | nil =>
      rw [List.nil_append, pathEdges, pathEdges, List.filterMap_cons_some, List.filterMap_nil]
      exact straighten_of_real hdependent hparent
  | cons first rest =>
      rw [hwaypoints] at hstep hlength
      rw [List.length_cons] at hlength
      -- the dependents of the other steps are the waypoints
      have hothers : ∀ edge ∈ pathEdges first (rest ++ [chain.edge.parent]),
          g'.isWaypoint edge.dependent = true ∧
            (g'.parentsOf edge.dependent).head? = some edge.parent := by
        intro edge hedge
        refine hstep edge (List.mem_cons_of_mem _ hedge) ?_
        rw [← map_dependent_pathEdges_concat first chain.edge.parent rest]
        exact List.mem_map_of_mem hedge
      have hresolve : g'.resolve first = some chain.edge.parent :=
        resolveFrom_of_path (by omega) hparent hothers
      rw [List.cons_append, pathEdges, List.filterMap_cons_some (b := chain.edge),
        List.filterMap_eq_nil_iff.2]
      · intro edge hedge
        rw [straighten, if_pos (hothers edge hedge).1]
      · rw [straighten, if_neg (by simp [hdependent]), hresolve]
        rfl

/-- Routing keeps the edges between real nodes. -/
theorem Routed.straightEdges_perm : g'.straightEdges.Perm g.edges := by
  have hshort : (g.edges.filter fun edge => ¬ g.IsLong edge).filterMap g'.straighten =
      g.edges.filter fun edge => ¬ g.IsLong edge := by
    rw [List.filterMap_congr (g := some), List.filterMap_some]
    intro edge hedge
    obtain ⟨hdependent, hparent⟩ := hlinked.mem_keys_of_mem_edges (List.mem_filter.1 hedge).1
    exact straighten_of_real (h.isWaypoint_of_mem_keys hlinked hunrouted hdependent)
      (h.isWaypoint_of_mem_keys hlinked hunrouted hparent)
  have hlong : (chains.flatMap Chain.steps).filterMap g'.straighten = chains.map Chain.edge := by
    rw [List.filterMap_flatMap, List.map_eq_flatMap]
    exact List.flatMap_congr fun chain hchain => h.filterMap_steps hlinked hunrouted hchain
  calc g'.straightEdges
      _ ~ ((g.edges.filter fun edge => ¬ g.IsLong edge) ++
            chains.flatMap Chain.steps).filterMap g'.straighten := h.edges_perm.filterMap _
      _ = (g.edges.filter fun edge => ¬ g.IsLong edge) ++ chains.map Chain.edge := by
        rw [List.filterMap_append, hshort, hlong]
      _ ~ (g.edges.filter fun edge => ¬ g.IsLong edge) ++ g.edges.filter g.IsLong :=
        h.chains_perm.append_left _
      _ ~ g.edges.filter g.IsLong ++ g.edges.filter fun edge => ¬ g.IsLong edge :=
        List.perm_append_comm
      _ ~ g.edges := by
        simpa using List.filter_append_perm g.IsLong g.edges

end Routed

end JobGraph.Graph
