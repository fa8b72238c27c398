import JobGraph.Proofs.Graph.FreeIds
import JobGraph.Proofs.Graph.Matrix

/-!
# What a layout leaves alone

Laying a graph out gives its nodes places, and puts waypoints on long edges.  It leaves the real
nodes and their payloads, the edges between them with the waypoints passed over, and what ids name
real nodes: `Redrawn`.  Each of its steps does, whether it fails or not.
-/

namespace JobGraph.Graph

variable {α : Type} {g g' g'' : Graph α}

/-- `g'` is `g` with another layout. -/
structure Redrawn (g g' : Graph α) : Prop where
  data?_eq : g'.data? = g.data?
  realKeys_eq : g'.realKeys = g.realKeys
  straightEdges_perm : g'.straightEdges.Perm g.straightEdges
  names : NamesKept g g'

theorem Redrawn.refl (g : Graph α) : Redrawn g g :=
  ⟨rfl, rfl, .refl _, .refl g⟩

theorem Redrawn.trans (h : Redrawn g g') (h' : Redrawn g' g'') : Redrawn g g'' :=
  ⟨h'.data?_eq.trans h.data?_eq, h'.realKeys_eq.trans h.realKeys_eq,
    h'.straightEdges_perm.trans h.straightEdges_perm, h.names.trans h'.names⟩

/-! ## Reading -/

/-- Straight edges are read from the nodes' parents and kinds. -/
theorem straightEdges_congr (hsize : g'.nodes.size = g.nodes.size)
    (hparents : g'.parentsOf = g.parentsOf) (hkind : g'.isWaypoint = g.isWaypoint) :
    g'.straightEdges = g.straightEdges := by
  have hstraighten : g'.straighten = g.straighten := by
    funext edge
    rw [straighten, hkind, resolve, hsize, resolveFrom_congr hparents hkind, straighten, resolve]
  rw [straightEdges, edges, keys, hsize, hparents, hstraighten, straightEdges, edges, keys]

theorem data?_clearLayout (g : Graph α) (key : NodeKey) :
    g.clearLayout.data? key = g.data? key := by
  rw [data?, node?_clearLayout, Option.bind_map, data?]
  rfl

theorem redrawn_of_clearLayout_eq (h : g'.clearLayout = g.clearLayout) : Redrawn g g' where
  data?_eq := by
    funext key
    rw [← data?_clearLayout g', h, data?_clearLayout]
  realKeys_eq := show g'.clearLayout.realKeys = g.clearLayout.realKeys by rw [h]
  straightEdges_perm := by
    rw [straightEdges_congr (size_of_clearLayout_eq h) (parentsOf_of_clearLayout_eq h)
      (isWaypoint_of_clearLayout_eq h)]
  names := .of_eq (show g'.clearLayout.idIndex = g.clearLayout.idIndex by rw [h])
    (size_of_clearLayout_eq h)

/-! ## Routing -/

theorem data?_eq_none_of_ends? {key : NodeKey} {ends : NodeKey × NodeKey}
    (h : (g.node? key).bind Node.ends? = some ends) : g.data? key = none := by
  obtain ⟨node, hnode, hends⟩ := Option.bind_eq_some_iff.1 h
  rw [data?, hnode, Option.bind_some, Node.data?]
  cases hkind : node.kind with
  | real data => simp [Node.ends?, hkind] at hends
  | waypoint source target => rfl

theorem data?_of_not_mem_keys {key : NodeKey} (h : key ∉ g.keys) : g.data? key = none := by
  rw [mem_keys, not_lt] at h
  rw [data?, (g.node?_eq_none_iff key).2 h, Option.bind_none]

/-- Waypoints have no payload, and the nodes there were keep theirs. -/
theorem Routed.data?_eq {chains : List Chain} (h : Routed g g' chains) : g'.data? = g.data? := by
  funext key
  by_cases hold : key ∈ g.keys
  · exact data?_of_bareNode?_eq (h.bareNode?_eq key hold)
  · rw [data?_of_not_mem_keys hold]
    by_cases hnew : key ∈ chains.flatMap Chain.waypoints
    · obtain ⟨chain, hchain, hkey⟩ := List.mem_flatMap.1 hnew
      exact data?_eq_none_of_ends? (h.ends chain hchain key hkey)
    · refine data?_of_not_mem_keys fun hkey => ?_
      rw [h.keys_eq, List.mem_append] at hkey
      exact hkey.elim hold hnew

theorem redrawn_routeLongEdges (h : Consistent g) : Redrawn g g.routeLongEdges.1 := by
  have hnames := g.namesKept_routeLongEdges
  cases hsorted : g.sorted with
  | false =>
      rw [show g.routeLongEdges.1 = g by simp [routeLongEdges, hsorted]]
      exact .refl g
  | true =>
      cases hunrouted : g.routed with
      | true =>
          rw [show g.routeLongEdges.1 = g by simp [routeLongEdges, hsorted, hunrouted]]
          exact .refl g
      | false =>
          obtain ⟨state, chains, heq, hsplitting, hperm⟩ :=
            exists_splitting_routeLongEdges h hsorted hunrouted
          have hrouted : Routed g state.1 chains := (hsplitting.routed hperm h.markRouted.toLinked
            (h.waypointKeys_of_unrouted hunrouted)).of_markRouted
          rw [heq] at hnames ⊢
          refine ⟨hrouted.data?_eq, hrouted.realKeys_eq, ?_, hnames⟩
          rw [straightEdges_of_unrouted h.toLinked hunrouted]
          exact hrouted.straightEdges_perm h.toLinked hunrouted

/-! ## Layouts -/

theorem redrawn_orderLayers (g : Graph α) (sweeps : Nat) : Redrawn g (g.orderLayers sweeps).1 := by
  obtain ⟨layers, heq, -⟩ := g.orderLayers_fst sweeps
  rw [heq]
  have hedges : ({ g with layers } : Graph α).straightEdges = g.straightEdges :=
    straightEdges_congr rfl rfl rfl
  exact ⟨rfl, rfl, by rw [hedges], .of_eq rfl rfl⟩

/-- **Layouts.**  Laying a graph out leaves its real nodes and the edges between them alone. -/
theorem redrawn_layOut (h : Consistent g) (options : LayoutOptions) :
    Consistent (g.layOut options).1 ∧ Redrawn g (g.layOut options).1 := by
  refine layOut_induction (P := fun g' => Consistent g' ∧ Redrawn g g') ?_ ?_ ?_ options
    ⟨h, .refl g⟩
  · rintro g' policy ⟨hconsistent, hredrawn⟩
    exact ⟨hconsistent.assignLayers policy, hredrawn.trans (redrawn_of_clearLayout_eq
      (clearLayout_assignLayers hconsistent.toLinked policy))⟩
  · rintro g' ⟨hconsistent, hredrawn⟩
    exact ⟨hconsistent.routeLongEdges, hredrawn.trans (redrawn_routeLongEdges hconsistent)⟩
  · rintro g' sweeps ⟨hconsistent, hredrawn⟩
    exact ⟨hconsistent.orderLayers sweeps, hredrawn.trans (redrawn_orderLayers g' sweeps)⟩

/-! ## Payloads -/

/-- A change of payloads leaves the straight edges and the names alone. -/
theorem straightEdges_modifyData (g : Graph α) (key : NodeKey) (change : α → α) :
    (g.modifyData key change).straightEdges = g.straightEdges ∧
      (g.modifyData key change).realKeys = g.realKeys ∧
      (g.modifyData key change).find? = g.find? := by
  unfold modifyData
  split
  · exact ⟨rfl, rfl, rfl⟩
  · rename_i data _
    obtain ⟨hparents, hkind, -⟩ := g.reads_setData key (change data)
    exact ⟨straightEdges_congr (g.nodes_size_modifyNode key _) hparents hkind, rfl, rfl⟩

end JobGraph.Graph
