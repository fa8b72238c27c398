import JobGraph.Proofs.Graph.Growth

/-!
# Splitting one edge

An edge that crosses layers is replaced by a `Chain`: a path from its dependent to its parent with
one new waypoint on each crossed layer.  The chain is built from above.  `Extended` is the invariant
of the building, in which the chain still hangs loose, and `Replaced` what the whole split does.
-/

namespace JobGraph.Graph

open scoped List

variable {α : Type} {g g' g'' : Graph α}

/-! ## Paths -/

/-- The edges of a path that starts at a node. -/
def pathEdges : NodeKey → List NodeKey → List Edge
  | _, [] => []
  | first, next :: rest => ⟨first, next⟩ :: pathEdges next rest

/-- The waypoints that stand for one edge, from its dependent on. -/
structure Chain where
  edge : Edge
  waypoints : List NodeKey
  deriving DecidableEq, Repr

/-- The edges of the path from the dependent over the waypoints to the parent. -/
def Chain.steps (chain : Chain) : List Edge :=
  pathEdges chain.edge.dependent (chain.waypoints ++ [chain.edge.parent])

theorem pathEdges_concat (first last : NodeKey) (path : List NodeKey) :
    pathEdges first (path ++ [last]) = pathEdges first path ++ [⟨path.getLastD first, last⟩] := by
  induction path generalizing first with
  | nil => rfl
  | cons next rest ih =>
      rw [List.cons_append, pathEdges, ih, List.getLastD_cons]
      rfl

theorem map_dependent_pathEdges_concat (first last : NodeKey) (path : List NodeKey) :
    (pathEdges first (path ++ [last])).map Edge.dependent = first :: path := by
  induction path generalizing first with
  | nil => rfl
  | cons next rest ih => rw [List.cons_append, pathEdges, List.map_cons, ih]

theorem map_parent_pathEdges (first : NodeKey) (path : List NodeKey) :
    (pathEdges first path).map Edge.parent = path := by
  induction path generalizing first with
  | nil => rfl
  | cons next rest ih => rw [pathEdges, List.map_cons, ih]

/-! ## Building a chain -/

/-- `g'` is `g` with waypoints of the edge from `source` to `target` on the layers `crossed`, which
hang below the node `first`. -/
structure Extended (g g' : Graph α) (source target first : NodeKey) (waypoints : List NodeKey)
    (crossed : List Nat) : Prop extends Grown g g' waypoints where
  consistent : Consistent g'
  edges_perm : g'.edges.Perm (pathEdges first waypoints ++ g.edges)
  layerOf_waypoints : waypoints.map g'.layerOf = crossed.map some
  unranked : ∀ key ∈ waypoints, g'.rankOf key = none
  ends : ∀ key ∈ waypoints, (g'.node? key).bind Node.ends? = some (source, target)
  parentsOf_eq : ∀ key ∈ g.keys, key ≠ first → g'.parentsOf key = g.parentsOf key

variable {source target first : NodeKey} {waypoints : List NodeKey} {crossed : List Nat}
  {layer : Nat}

theorem Extended.refl (h : Consistent g) : Extended g g source target first [] [] where
  toGrown := .refl g
  consistent := h
  edges_perm := .refl g.edges
  layerOf_waypoints := rfl
  unranked := by simp
  ends := by simp
  parentsOf_eq _ _ _ := rfl

/-- A first waypoint, and a chain below it. -/
theorem Extended.cons {waypoint : NodeKey}
    (h : Extended g g' source target first [waypoint] [layer])
    (h' : Extended g' g'' source target waypoint waypoints crossed) :
    Extended g g'' source target first (waypoint :: waypoints) (layer :: crossed) := by
  have hold : waypoint ∈ g'.keys := h.mem_keys_of_added (List.mem_singleton_self waypoint)
  have hnew : waypoint ∉ g.keys := h.not_mem_keys_of_added (List.mem_singleton_self waypoint)
  refine { toGrown := h.toGrown.trans h'.toGrown, consistent := h'.consistent, edges_perm := ?_,
           layerOf_waypoints := ?_, unranked := ?_, ends := ?_, parentsOf_eq := ?_ }
  · calc g''.edges
        _ ~ pathEdges waypoint waypoints ++ g'.edges := h'.edges_perm
        _ ~ pathEdges waypoint waypoints ++ ⟨first, waypoint⟩ :: g.edges := h.edges_perm.append_left _
        _ ~ ⟨first, waypoint⟩ :: (pathEdges waypoint waypoints ++ g.edges) := List.perm_middle
  · have hfirst := h.layerOf_waypoints
    rw [List.map_singleton, ← h'.layerOf_eq hold] at hfirst
    rw [List.map_cons, h'.layerOf_waypoints, List.map_cons, (List.cons.inj hfirst).1]
  · intro key hkey
    rcases List.mem_cons.1 hkey with rfl | hkey
    · rw [h'.rankOf_eq hold]
      exact h.unranked key (List.mem_singleton_self key)
    · exact h'.unranked key hkey
  · intro key hkey
    rcases List.mem_cons.1 hkey with rfl | hkey
    · rw [h'.ends?_eq hold]
      exact h.ends key (List.mem_singleton_self key)
    · exact h'.ends key hkey
  · intro key hkey hne
    have hother : key ≠ waypoint := fun heq => hnew (heq ▸ hkey)
    rw [h'.parentsOf_eq key (h.mem_keys_of_mem hkey) hother, h.parentsOf_eq key hkey hne]

/-- One step adds the next key as a waypoint. -/
theorem extended_extendChain (source target : NodeKey) (h : Consistent g) (hrouted : g.routed = true)
    (hfirst : first < g.nodes.size) (hlayer : layer < g.layers.length) :
    Extended g (extendChain source target (g, first) layer).1 source target first [g.nodes.size]
      [layer] := by
  obtain ⟨id, hstep⟩ : ∃ id, (extendChain source target (g, first) layer).1 =
      (g.withWaypoint id source target layer).addEdge first g.nodes.size := ⟨_, rfl⟩
  rw [hstep]
  have hsize := nodes_size_withWaypoint g id source target layer
  have hfirstLt : first < (g.withWaypoint id source target layer).nodes.size := by
    rw [hsize]
    exact Nat.lt_succ_of_lt hfirst
  have hnewLt : g.nodes.size < (g.withWaypoint id source target layer).nodes.size := by omega
  have hgrown : Grown g ((g.withWaypoint id source target layer).addEdge first g.nodes.size)
      [g.nodes.size] :=
    (grown_withWaypoint g id source target layer).trans (grown_addEdge _ first g.nodes.size)
  have hbare := bareNode?_addEdge (g.withWaypoint id source target layer) first g.nodes.size
    g.nodes.size
  refine { toGrown := hgrown
           consistent := (h.withWaypoint hrouted id source target hlayer).addEdge first g.nodes.size
           edges_perm := ?_, layerOf_waypoints := ?_, unranked := ?_, ends := ?_, parentsOf_eq := ?_ }
  · have hparents := parentsOf_withWaypoint g id source target layer
    exact (edges_addEdge_perm hfirstLt hnewLt).trans
      ((edges_perm_of_parentsOf_eq hparents).cons _)
  · rw [List.map_singleton, layerOf_of_bareNode?_eq hbare, layerOf_withWaypoint, if_pos rfl]
    rfl
  · intro key hkey
    rw [List.mem_singleton.1 hkey, rankOf_of_bareNode?_eq hbare, rankOf, node?_withWaypoint,
      if_pos rfl]
    rfl
  · intro key hkey
    rw [List.mem_singleton.1 hkey, ends?_of_bareNode?_eq hbare, node?_withWaypoint, if_pos rfl]
    rfl
  · intro key _ hne
    rw [parentsOf_addEdge _ hfirstLt hnewLt, if_neg hne, parentsOf_withWaypoint]

/-- A whole chain is built from above, and its end is known for the next edge. -/
theorem extended_foldl_extendChain (source target : NodeKey) (crossed : List Nat) (h : Consistent g)
    (hrouted : g.routed = true) (hfirst : first < g.nodes.size)
    (hcrossed : ∀ layer ∈ crossed, layer < g.layers.length) :
    ∃ waypoints, waypoints.length = crossed.length ∧
      Extended g (crossed.foldl (extendChain source target) (g, first)).1 source target first
        waypoints crossed ∧
      (crossed.foldl (extendChain source target) (g, first)).2 = waypoints.getLastD first := by
  induction crossed generalizing g first with
  | nil => exact ⟨[], rfl, .refl h, rfl⟩
  | cons layer rest ih =>
      obtain ⟨hlayer, hrest⟩ := List.forall_mem_cons.1 hcrossed
      -- the rest of the chain hangs below the waypoint that this step adds
      have hstep := extended_extendChain source target h hrouted hfirst hlayer
      have hnew : g.nodes.size < (extendChain source target (g, first) layer).1.nodes.size :=
        (mem_keys _ _).1 (hstep.mem_keys_of_added (List.mem_singleton_self g.nodes.size))
      obtain ⟨waypoints, hlength, hextended, hlast⟩ := ih hstep.consistent
        (hstep.routed_eq.trans hrouted) hnew (by rwa [hstep.length_layers])
      refine ⟨g.nodes.size :: waypoints, by rw [List.length_cons, hlength, List.length_cons],
        hstep.cons hextended, ?_⟩
      rw [List.getLastD_cons]
      exact hlast

/-! ## Splitting one edge -/

/-- `g'` is `g` with a chain in the place of one of its edges. -/
structure Replaced (g g' : Graph α) (chain : Chain) : Prop extends
    Grown g g' chain.waypoints where
  consistent : Consistent g'
  edges_perm : (chain.edge :: g'.edges).Perm (chain.steps ++ g.edges)
  layerOf_waypoints : chain.waypoints.map g'.layerOf =
    (g.crossedLayers chain.edge.dependent chain.edge.parent).map some
  unranked : ∀ key ∈ chain.waypoints, g'.rankOf key = none
  ends : ∀ key ∈ chain.waypoints,
    (g'.node? key).bind Node.ends? = some (chain.edge.dependent, chain.edge.parent)
  parentsOf_eq : ∀ key ∈ g.keys, key ≠ chain.edge.dependent → g'.parentsOf key = g.parentsOf key

theorem lt_of_mem_crossedLayers (h : Placed g) {dependent parent : NodeKey}
    (hlayer : layer ∈ g.crossedLayers dependent parent) : layer < g.layers.length := by
  unfold crossedLayers at hlayer
  split at hlayer
  · rename_i high low hhigh _
    have hlt := h.lt_length_of_layerOf hhigh
    rw [layersBetween, List.mem_reverse, List.mem_range'_1] at hlayer
    omega
  · exact absurd hlayer List.not_mem_nil

/-- A chain is closed by the edge from its end to the parent, which the first removed. -/
theorem Extended.replaced {hung : Graph α} {dependent parent : NodeKey}
    (hedge : parent ∈ g.parentsOf dependent) (hparent : parent < g.nodes.size)
    (h : Extended (g.removeEdge dependent parent) hung dependent parent dependent waypoints
      (g.crossedLayers dependent parent)) :
    Replaced g (hung.addEdge (waypoints.getLastD dependent) parent)
      ⟨⟨dependent, parent⟩, waypoints⟩ := by
  have hremoved := grown_removeEdge g dependent parent
  have hgrown : Grown g hung waypoints := hremoved.trans h.toGrown
  have hclosed := grown_addEdge hung (waypoints.getLastD dependent) parent
  have hbare : ∀ key, (hung.addEdge (waypoints.getLastD dependent) parent).bareNode? key =
      hung.bareNode? key := bareNode?_addEdge hung _ parent
  have hlastMem : waypoints.getLastD dependent ∈ dependent :: waypoints := List.getLastD_mem_cons
  have hlast : waypoints.getLastD dependent < hung.nodes.size := by
    rw [← mem_keys]
    rcases List.mem_cons.1 hlastMem with heq | hmem
    · rw [heq]
      exact hgrown.mem_keys_of_mem ((mem_keys g dependent).2 (g.lt_of_mem_parentsOf hedge))
    · exact hgrown.mem_keys_of_added hmem
  have hparentLt : parent < hung.nodes.size := lt_of_lt_of_le hparent hgrown.size_le
  refine { toGrown := by simpa using hgrown.trans hclosed
           consistent := h.consistent.addEdge _ parent
           edges_perm := ?_, layerOf_waypoints := ?_, unranked := ?_, ends := ?_, parentsOf_eq := ?_ }
  · have hsteps : Chain.steps ⟨⟨dependent, parent⟩, waypoints⟩ =
        pathEdges dependent waypoints ++ [⟨waypoints.getLastD dependent, parent⟩] :=
      pathEdges_concat dependent parent waypoints
    rw [hsteps, List.append_assoc]
    calc (⟨dependent, parent⟩ : Edge) :: (hung.addEdge (waypoints.getLastD dependent) parent).edges
        _ ~ ⟨dependent, parent⟩ :: ⟨waypoints.getLastD dependent, parent⟩ :: hung.edges :=
          (edges_addEdge_perm hlast hparentLt).cons _
        _ ~ ⟨waypoints.getLastD dependent, parent⟩ :: ⟨dependent, parent⟩ :: hung.edges :=
          .swap _ _ _
        _ ~ ⟨waypoints.getLastD dependent, parent⟩ :: ⟨dependent, parent⟩ ::
              (pathEdges dependent waypoints ++ (g.removeEdge dependent parent).edges) :=
          (h.edges_perm.cons _).cons _
        _ ~ ⟨waypoints.getLastD dependent, parent⟩ ::
              (pathEdges dependent waypoints ++ g.edges) :=
          (List.perm_middle.symm.trans ((edges_removeEdge_perm hedge).symm.append_left _)).cons _
        _ ~ pathEdges dependent waypoints ++ ⟨waypoints.getLastD dependent, parent⟩ :: g.edges :=
          List.perm_middle.symm
  · rw [← h.layerOf_waypoints]
    exact List.map_congr_left fun key _ => layerOf_of_bareNode?_eq (hbare key)
  · intro key hkey
    rw [rankOf_of_bareNode?_eq (hbare key)]
    exact h.unranked key hkey
  · intro key hkey
    rw [ends?_of_bareNode?_eq (hbare key)]
    exact h.ends key hkey
  · intro key hkey hne
    -- the last edge leaves the dependent or a new node
    have hneLast : key ≠ waypoints.getLastD dependent := by
      rintro rfl
      rcases List.mem_cons.1 hlastMem with heq | hmem
      · exact hne heq
      · exact hgrown.not_mem_keys_of_added hmem hkey
    rw [parentsOf_addEdge hung hlast hparentLt, if_neg hneLast,
      h.parentsOf_eq key (hremoved.mem_keys_of_mem hkey) hne, parentsOf_removeEdge, if_neg hne]

/-- **Splitting.**  An edge that crosses layers is replaced by a chain across them. -/
theorem replaced_splitEdge (h : Consistent g) (hrouted : g.routed = true)
    {dependent parent : NodeKey} (hedge : parent ∈ g.parentsOf dependent)
    (hcrossed : g.crossedLayers dependent parent ≠ []) (count : Nat) :
    ∃ chain : Chain, chain.edge = ⟨dependent, parent⟩ ∧
      Replaced g (splitEdge dependent (g, count) parent).1 chain ∧
      (splitEdge dependent (g, count) parent).2 = count + chain.waypoints.length := by
  have hremoved := grown_removeEdge g dependent parent
  have hlayers : ∀ layer ∈ g.crossedLayers dependent parent,
      layer < (g.removeEdge dependent parent).layers.length := by
    intro layer hlayer
    rw [hremoved.length_layers]
    exact lt_of_mem_crossedLayers h.toPlaced hlayer
  obtain ⟨waypoints, hlength, hchain, hlast⟩ := extended_foldl_extendChain dependent parent
    (g.crossedLayers dependent parent) (h.removeEdge dependent parent)
    (hremoved.routed_eq.trans hrouted) (by simpa using g.lt_of_mem_parentsOf hedge) hlayers
  refine ⟨⟨⟨dependent, parent⟩, waypoints⟩, rfl, ?_, ?_⟩
  · have hreplaced := hchain.replaced hedge (h.toLinked.lt_of_mem_parentsOf hedge)
    rw [← hlast] at hreplaced
    rw [splitEdge, if_neg (by simpa using hcrossed)]
    exact hreplaced
  · rw [splitEdge, if_neg (by simpa using hcrossed), hlength]

end JobGraph.Graph
