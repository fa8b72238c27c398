import JobGraph.Proofs.Graph.FreeIds
import JobGraph.Proofs.Graph.Neighbours
import JobGraph.Proofs.Graph.Operations

/-!
# Invariants of reachable graphs

An `Invariant` holds of the empty graph and is kept by every step that an operation takes; a routing
takes many.  Then it holds of every reachable graph.

Most steps do one of four things to what does not depend on the layout: they add a node without
edges, `Enlarged`, they add or remove an edge, or they leave nodes and neighbours alone, `Alike`.
`Invariant.of_changes` asks for these only.
-/

namespace JobGraph

/-- What a node is listed by: its id, whether it is a waypoint, and its place among its kind. -/
def Node.label {α : Type} (node : Node α) : String × Bool × Nat :=
  (node.id, node.isWaypoint, node.index)

namespace Graph

variable {α : Type} {g g' : Graph α} {P : Graph α → Prop}

/-! ## Kept by every step -/

/-- The empty graph has the property, and every step of an operation keeps it. -/
structure Invariant (P : Graph α → Prop) : Prop where
  empty : P .empty
  addNode (g : Graph α) (id : String) (data : α) : P g → P (g.addNode id data)
  addEdge (g : Graph α) (dependent parent : NodeKey) : P g → P (g.addEdge dependent parent)
  removeEdge (g : Graph α) (dependent parent : NodeKey) : P g → P (g.removeEdge dependent parent)
  setData (g : Graph α) (key : NodeKey) (data : α) : P g → P (g.setData key data)
  setPosition (g : Graph α) (key : NodeKey) (position : Position) :
    P g → P (g.setPosition key position)
  assignLayers (g : Graph α) (policy : CyclePolicy) :
    Consistent g → P g → P (g.assignLayers policy).1
  orderLayers (g : Graph α) (sweeps : Nat) : P g → P (g.orderLayers sweeps).1
  /-- The first step of a routing. -/
  markRouted (g : Graph α) : P g → P { g with routed := true }
  withWaypoint (g : Graph α) (base : String) (source target : NodeKey) (layer : Nat) :
    P g → P (g.withWaypoint (g.freeId base) source target layer)

namespace Invariant

theorem routeLongEdges (h : Invariant P) (hg : P g) : P g.routeLongEdges.1 :=
  routeLongEdges_induction h.markRouted h.addEdge h.removeEdge h.withWaypoint hg

theorem layOut (h : Invariant P) (hconsistent : Consistent g) (hg : P g) (options : LayoutOptions) :
    P (g.layOut options).1 := by
  refine hconsistent.layOut_induction h.assignLayers (fun g _ hg => ?_) h.orderLayers options hg
  exact h.routeLongEdges hg

theorem perform (h : Invariant P) (hconsistent : Consistent g) (hg : P g)
    (operation : Operation α) : P (g.perform operation) := by
  cases operation with
  | addNode id data => exact h.addNode g id data hg
  | addEdge dependent parent => exact h.addEdge g dependent parent hg
  | removeEdge dependent parent => exact h.removeEdge g dependent parent hg
  | setData key data => exact h.setData g key data hg
  | setPosition key position => exact h.setPosition g key position hg
  | assignLayers policy => exact h.assignLayers g policy hconsistent hg
  | routeLongEdges => exact h.routeLongEdges hg
  | orderLayers sweeps => exact h.orderLayers g sweeps hg
  | layOut options => exact h.layOut hconsistent hg options

theorem ofRecords (h : Invariant P) (id : α → String) (parentIds : α → List String)
    (records : List α) : P (ofRecords id parentIds records) :=
  ofRecords_induction h.empty h.addNode h.addEdge id parentIds records

/-- An invariant holds of every reachable graph. -/
theorem holds (h : Invariant P) (hreachable : Reachable g) : P g := by
  induction hreachable with
  | empty => exact h.empty
  | ofRecords id parentIds records => exact h.ofRecords id parentIds records
  | perform hreachable operation ih => exact h.perform hreachable.consistent ih operation

end Invariant

/-! ## Nodes as they are listed -/

variable (g)

/-- What a key is listed by. -/
def label? (key : NodeKey) : Option (String × Bool × Nat) :=
  (g.node? key).map Node.label

/-- The nodes of a kind in the order of their creation: the waypoints or the real nodes. -/
def keysOfKind (waypoint : Bool) : List NodeKey :=
  if waypoint then g.waypointKeys else g.realKeys

variable {g}

theorem id?_eq_map_label? (key : NodeKey) : g.id? key = (g.label? key).map Prod.fst := by
  rw [id?, label?, Option.map_map]
  rfl

theorem label?_of_bareNode?_eq {key : NodeKey} (h : g'.bareNode? key = g.bareNode? key) :
    g'.label? key = g.label? key := by
  have hread : ∀ g : Graph α, (g.bareNode? key).map Node.label = g.label? key := by
    intro g
    rw [bareNode?, label?, Option.map_map]
    rfl
  rw [← hread, h, hread]

theorem label?_of_clearLayout_eq (h : g'.clearLayout = g.clearLayout) : g'.label? = g.label? := by
  have hread : ∀ g : Graph α, g.clearLayout.label? = g.label? := by
    intro g
    funext key
    rw [label?, node?_clearLayout, Option.map_map]
    rfl
  rw [← hread, h, hread]

theorem side_of_clearLayout_eq (h : g'.clearLayout = g.clearLayout) : g'.side = g.side := by
  have hread : ∀ g : Graph α, g.clearLayout.side = g.side := by
    intro g
    funext direction key
    rw [side, side, node?_clearLayout]
    cases g.node? key <;> cases direction <;> rfl
  rw [← hread, h, hread]

/-! ## Nodes and neighbours left alone -/

/-- `g'` has the nodes of `g` with their neighbours.  Payloads, places and positions may differ. -/
structure Alike (g g' : Graph α) : Prop where
  size_eq : g'.nodes.size = g.nodes.size
  label?_eq : g'.label? = g.label?
  side_eq : g'.side = g.side
  keysOfKind_eq : g'.keysOfKind = g.keysOfKind
  idIndex_eq : g'.idIndex = g.idIndex

theorem Alike.id?_eq (h : Alike g g') : g'.id? = g.id? := by
  funext key
  rw [id?_eq_map_label?, h.label?_eq, id?_eq_map_label?]

theorem alike_modifyNode (g : Graph α) (key : NodeKey) {change : Node α → Node α}
    (hlabel : ∀ node, (change node).label = node.label)
    (hside : ∀ direction node, (change node).side direction = node.side direction) :
    Alike g (g.modifyNode key change) where
  size_eq := nodes_size_modifyNode g key change
  label?_eq := by
    funext other
    rw [label?, node?_modifyNode]
    split
    · rw [Option.map_map, label?]
      exact congrArg ((g.node? other).map ·) (funext hlabel)
    · rfl
  side_eq := by
    funext direction other
    exact elim_modifyNode_of_same g key (fun node => node.side direction) .empty (hside direction)
      other
  keysOfKind_eq := rfl
  idIndex_eq := rfl

theorem alike_setData (g : Graph α) (key : NodeKey) (data : α) : Alike g (g.setData key data) := by
  refine alike_modifyNode g key (fun node => ?_) fun direction node => ?_
  · cases hkind : node.kind <;> simp [Node.label, Node.isWaypoint, Node.ends?, hkind]
  · cases hkind : node.kind <;> cases direction <;> rfl

theorem alike_setPosition (g : Graph α) (key : NodeKey) (position : Position) :
    Alike g (g.setPosition key position) :=
  alike_modifyNode g key (fun _ => rfl) fun direction _ => by cases direction <;> rfl

theorem Linked.alike_assignLayers (h : Linked g) (policy : CyclePolicy) :
    Alike g (g.assignLayers policy).1 := by
  have heq := clearLayout_assignLayers h policy
  refine ⟨size_of_clearLayout_eq heq, label?_of_clearLayout_eq heq, side_of_clearLayout_eq heq, ?_, ?_⟩
  · have hreal : (g.assignLayers policy).1.clearLayout.realKeys = g.clearLayout.realKeys := by rw [heq]
    have hwaypoints : (g.assignLayers policy).1.clearLayout.waypointKeys =
        g.clearLayout.waypointKeys := by rw [heq]
    funext waypoint
    exact congrArg₂ (fun waypoints reals => if waypoint then waypoints else reals) hwaypoints hreal
  · have hindex : (g.assignLayers policy).1.clearLayout.idIndex = g.clearLayout.idIndex := by rw [heq]
    exact hindex

theorem alike_orderLayers (g : Graph α) (sweeps : Nat) : Alike g (g.orderLayers sweeps).1 := by
  obtain ⟨layers, heq, -⟩ := g.orderLayers_fst sweeps
  rw [heq]
  exact ⟨rfl, rfl, rfl, rfl, rfl⟩

theorem alike_markRouted (g : Graph α) : Alike g { g with routed := true } :=
  ⟨rfl, rfl, rfl, rfl, rfl⟩

/-! ## One more node -/

/-- `g'` is `g` with one more node, which has no edges. -/
structure Enlarged (g g' : Graph α) (id : String) (waypoint : Bool) : Prop where
  size_eq : g'.nodes.size = g.nodes.size + 1
  label?_eq : ∀ key, g'.label? key =
    if key = g.nodes.size then some (id, waypoint, (g.keysOfKind waypoint).length) else g.label? key
  side_eq : g'.side = g.side
  keysOfKind_eq : ∀ kind, g'.keysOfKind kind =
    g.keysOfKind kind ++ if kind = waypoint then [g.nodes.size] else []
  idIndex_eq : g'.idIndex = g.idIndex.insert id g.nodes.size

namespace Enlarged

variable {id : String} {waypoint : Bool}

theorem id?_eq (h : Enlarged g g' id waypoint) (key : NodeKey) :
    g'.id? key = if key = g.nodes.size then some id else g.id? key := by
  rw [id?_eq_map_label?, h.label?_eq]
  split
  · rfl
  · rw [id?_eq_map_label?]

theorem id?_of_id? (h : Enlarged g g' id waypoint) {key : NodeKey} {name : String}
    (hname : g.id? key = some name) : g'.id? key = some name := by
  have hlt := lt_of_isSome_id? (Option.isSome_of_eq_some hname)
  rw [h.id?_eq, if_neg (Nat.ne_of_lt hlt), hname]

end Enlarged

private theorem label?_of_node?_eq {node : Node α}
    (h : ∀ key, g'.node? key = if key = g.nodes.size then some node else g.node? key)
    (key : NodeKey) :
    g'.label? key = if key = g.nodes.size then some node.label else g.label? key := by
  rw [label?, h, apply_ite (Option.map Node.label)]
  rfl

private theorem side_of_node?_eq {node : Node α}
    (h : ∀ key, g'.node? key = if key = g.nodes.size then some node else g.node? key)
    (hside : ∀ direction, node.side direction = .empty) : g'.side = g.side := by
  funext direction key
  rw [side, h, side]
  split
  · rename_i hkey
    rw [(g.node?_eq_none_iff key).2 hkey.ge]
    exact hside direction
  · rfl

theorem enlarged_addNode (g : Graph α) (id : String) (data : α) :
    Enlarged g (g.addNode id data) id false := by
  have hnode : ∀ key, (g.addNode id data).node? key = if key = g.nodes.size then
      some (Node.new id (.real data) g.realKeys.length) else g.node? key :=
    node?_of_push g rfl
  refine ⟨?_, label?_of_node?_eq hnode, side_of_node?_eq hnode ?_, ?_, rfl⟩
  · simp [addNode]
  · exact fun direction => by cases direction <;> rfl
  · intro kind
    cases kind <;> simp [keysOfKind, addNode, nextKey]

theorem enlarged_withWaypoint (g : Graph α) (id : String) (source target : NodeKey) (layer : Nat) :
    Enlarged g (g.withWaypoint id source target layer) id true := by
  have hnode := node?_withWaypoint g id source target layer
  refine ⟨nodes_size_withWaypoint g id source target layer, label?_of_node?_eq hnode,
    side_of_node?_eq hnode ?_, ?_, rfl⟩
  · exact fun direction => by cases direction <;> rfl
  · intro kind
    cases kind <;> simp [keysOfKind, withWaypoint, addWaypoint, modifyNode, nextKey]

/-! ## Four changes -/

/-- A property that does not depend on the layout is an invariant if four changes keep it. -/
theorem Invariant.of_changes (hempty : P .empty)
    (hnode : ∀ (g g' : Graph α) (id : String) (waypoint : Bool),
      Enlarged g g' id waypoint → P g → P g')
    (hadd : ∀ (g : Graph α) (dependent parent : NodeKey), P g → P (g.addEdge dependent parent))
    (hremove : ∀ (g : Graph α) (dependent parent : NodeKey), P g →
      P (g.removeEdge dependent parent))
    (halike : ∀ g g' : Graph α, Alike g g' → P g → P g') : Invariant P where
  empty := hempty
  addNode g id data := hnode g _ id false (enlarged_addNode g id data)
  addEdge := hadd
  removeEdge := hremove
  setData g key data := halike g _ (alike_setData g key data)
  setPosition g key position := halike g _ (alike_setPosition g key position)
  assignLayers g policy hconsistent := halike g _ (hconsistent.toLinked.alike_assignLayers policy)
  orderLayers g sweeps := halike g _ (alike_orderLayers g sweeps)
  markRouted g := halike g _ (alike_markRouted g)
  withWaypoint g base source target layer :=
    hnode g _ _ true (enlarged_withWaypoint g (g.freeId base) source target layer)

end Graph

end JobGraph
