import JobGraph.Graph.Edges
import Mathlib.Tactic

/-!
# What an operation changes for a reader

A reader sees a graph through `node?` and what is derived from it: parents, children, rank, layer
and kind of a node.  This file says once for each operation what it does to these, so that later
files never look at the array of nodes.

Two graphs that differ in their layout only are equal once the layout is cleared, and
`clearLayout` leaves edges, kinds, ids and payloads alone.  So the equation
`g'.clearLayout = g.clearLayout` says that `g'` is `g` with another layout.
-/

namespace JobGraph.Graph

variable {α : Type} (g : Graph α)

/-! ## Changing one node -/

theorem node?_modifyNode (key other : NodeKey) (change : Node α → Node α) :
    (g.modifyNode key change).node? other =
      if key = other then (g.node? other).map change else g.node? other := by
  simp [node?, modifyNode, Array.getElem?_modify]

@[simp]
theorem nodes_size_modifyNode (key : NodeKey) (change : Node α → Node α) :
    (g.modifyNode key change).nodes.size = g.nodes.size := by
  simp [modifyNode]

/-- A change of a node as a reader of one of its parts sees it.  The part of a missing node is
`missing`, so either there is a node to change or the change has no effect on that default. -/
theorem elim_modifyNode {β : Type} {key : NodeKey} {change : Node α → Node α}
    (read : Node α → β) (missing : β) (effect : β → β)
    (hread : ∀ node, read (change node) = effect (read node))
    (hkey : key < g.nodes.size ∨ effect missing = missing) (other : NodeKey) :
    ((g.modifyNode key change).node? other).elim missing read =
      if other = key then effect ((g.node? other).elim missing read)
      else (g.node? other).elim missing read := by
  rw [node?_modifyNode]
  by_cases hother : key = other
  · subst hother
    cases hnode : g.node? key with
    | none =>
        have hsize : ¬ key < g.nodes.size := by simpa [node?] using hnode
        simp [hkey.resolve_left hsize]
    | some node => simp [hread]
  · simp [hother, Ne.symm hother]

/-- A reader of a part that the change leaves alone sees no change. -/
theorem elim_modifyNode_of_same {β : Type} (key : NodeKey) {change : Node α → Node α}
    (read : Node α → β) (missing : β) (hsame : ∀ node, read (change node) = read node)
    (other : NodeKey) :
    ((g.modifyNode key change).node? other).elim missing read =
      (g.node? other).elim missing read := by
  rw [elim_modifyNode g read missing id hsame (.inr rfl), id, ite_self]

theorem node?_eq_none_iff (key : NodeKey) : g.node? key = none ↔ g.nodes.size ≤ key := by
  simp [node?]

theorem lt_of_mem_parentsOf {key parent : NodeKey} (h : parent ∈ g.parentsOf key) :
    key < g.nodes.size := by
  by_contra hcontra
  simp [parentsOf, (g.node?_eq_none_iff key).2 (not_lt.1 hcontra)] at h

theorem lt_of_mem_childrenOf {key child : NodeKey} (h : child ∈ g.childrenOf key) :
    key < g.nodes.size := by
  by_contra hcontra
  simp [childrenOf, (g.node?_eq_none_iff key).2 (not_lt.1 hcontra)] at h

theorem lt_of_layerOf {key : NodeKey} {layer : Nat} (h : g.layerOf key = some layer) :
    key < g.nodes.size := by
  by_contra hcontra
  simp [layerOf, (g.node?_eq_none_iff key).2 (not_lt.1 hcontra)] at h

@[simp]
theorem mem_keys (key : NodeKey) : key ∈ g.keys ↔ key < g.nodes.size := by
  simp [keys]

theorem nodup_keys : g.keys.Nodup :=
  List.nodup_range

/-! ## Payloads -/

theorem data?_setData (key other : NodeKey) (data : α) :
    (g.setData key data).data? other =
      if other = key then (g.data? other).map fun _ => data else g.data? other := by
  unfold setData data?
  rw [node?_modifyNode]
  by_cases hother : key = other
  · rw [if_pos hother, if_pos hother.symm]
    cases g.node? other with
    | none => rfl
    | some node => cases hkind : node.kind <;> simp [Node.data?, hkind]
  · rw [if_neg hother, if_neg (Ne.symm hother)]

theorem data?_modifyData (key other : NodeKey) (change : α → α) :
    (g.modifyData key change).data? other =
      if other = key then (g.data? other).map change else g.data? other := by
  rw [modifyData]
  cases hdata : g.data? key with
  | none =>
      by_cases hother : other = key
      · rw [if_pos hother, hother, hdata]
        rfl
      · rw [if_neg hother]
  | some data =>
      show (g.setData key (change data)).data? other = _
      rw [data?_setData]
      by_cases hother : other = key
      · rw [if_pos hother, if_pos hother, hother, hdata]
        rfl
      · rw [if_neg hother, if_neg hother]

/-! ## Clearing the layout -/

theorem node?_clearLayout (key : NodeKey) :
    g.clearLayout.node? key =
      (g.node? key).map fun node => { node with rank := none, layer := none } := by
  simp [node?, clearLayout]

@[simp]
theorem parentsOf_clearLayout (key : NodeKey) : g.clearLayout.parentsOf key = g.parentsOf key := by
  simp only [parentsOf, node?_clearLayout]
  cases g.node? key <;> rfl

@[simp]
theorem childrenOf_clearLayout (key : NodeKey) :
    g.clearLayout.childrenOf key = g.childrenOf key := by
  simp only [childrenOf, node?_clearLayout]
  cases g.node? key <;> rfl

@[simp]
theorem isWaypoint_clearLayout (key : NodeKey) :
    g.clearLayout.isWaypoint key = g.isWaypoint key := by
  simp only [isWaypoint, node?_clearLayout]
  cases g.node? key <;> rfl

variable {g} {g' : Graph α}

theorem size_of_clearLayout_eq (h : g'.clearLayout = g.clearLayout) :
    g'.nodes.size = g.nodes.size := by
  rw [← clearLayout_size g', h, clearLayout_size]

theorem parentsOf_of_clearLayout_eq (h : g'.clearLayout = g.clearLayout) :
    g'.parentsOf = g.parentsOf := by
  funext key
  rw [← parentsOf_clearLayout g', h, parentsOf_clearLayout]

theorem childrenOf_of_clearLayout_eq (h : g'.clearLayout = g.clearLayout) :
    g'.childrenOf = g.childrenOf := by
  funext key
  rw [← childrenOf_clearLayout g', h, childrenOf_clearLayout]

theorem isWaypoint_of_clearLayout_eq (h : g'.clearLayout = g.clearLayout) :
    g'.isWaypoint = g.isWaypoint := by
  funext key
  rw [← isWaypoint_clearLayout g', h, isWaypoint_clearLayout]

theorem idOf_of_clearLayout_eq (h : g'.clearLayout = g.clearLayout) : g'.idOf = g.idOf := by
  have hid : ∀ (g : Graph α) (key : NodeKey), g.clearLayout.idOf key = g.idOf key := by
    intro g key
    rw [idOf, idOf, node?_clearLayout]
    cases g.node? key <;> rfl
  funext key
  rw [← hid g', h, hid g]

/-! ## Adding nodes -/

variable (g)

theorem node?_of_push {node : Node α} (h : g'.nodes = g.nodes.push node) (key : NodeKey) :
    g'.node? key = if key = g.nodes.size then some node else g.node? key := by
  simp only [node?, h, Array.getElem?_push]

theorem node?_addWaypoint (id : String) (source target key : NodeKey) :
    (g.addWaypoint id source target).node? key =
      if key = g.nodes.size then
        some (Node.new id (.waypoint source target) g.waypointKeys.length)
      else g.node? key :=
  node?_of_push g rfl key

/-- A new node reads as a missing one wherever it holds the default. -/
theorem elim_of_push {β : Type} (node : Node α) (h : g'.nodes = g.nodes.push node)
    (read : Node α → β) (key : NodeKey) :
    (g'.node? key).elim (read node) read = (g.node? key).elim (read node) read := by
  rw [node?_of_push g h]
  split
  · rename_i hkey
    subst hkey
    simp [(g.node?_eq_none_iff g.nodes.size).2 le_rfl]
  · rfl

theorem rankOf_eq_elim (key : NodeKey) : g.rankOf key = (g.node? key).elim none Node.rank := by
  unfold rankOf
  cases g.node? key <;> rfl

theorem layerOf_eq_elim (key : NodeKey) : g.layerOf key = (g.node? key).elim none Node.layer := by
  unfold layerOf
  cases g.node? key <;> rfl

/-- A new node without edges and without a place changes neither edges nor places. -/
theorem reads_of_push (node : Node α) (h : g'.nodes = g.nodes.push node)
    (hparents : node.parents = []) (hchildren : node.children = []) (hrank : node.rank = none)
    (hlayer : node.layer = none) :
    g'.parentsOf = g.parentsOf ∧ g'.childrenOf = g.childrenOf ∧ g'.rankOf = g.rankOf ∧
      g'.layerOf = g.layerOf := by
  refine ⟨funext fun key => ?_, funext fun key => ?_, funext fun key => ?_, funext fun key => ?_⟩
  · rw [parentsOf, parentsOf, ← hparents, elim_of_push g node h]
  · rw [childrenOf, childrenOf, ← hchildren, elim_of_push g node h]
  · rw [rankOf_eq_elim, rankOf_eq_elim, ← hrank, elim_of_push g node h]
  · rw [layerOf_eq_elim, layerOf_eq_elim, ← hlayer, elim_of_push g node h]

theorem reads_addNode (id : String) (data : α) :
    (g.addNode id data).parentsOf = g.parentsOf ∧ (g.addNode id data).childrenOf = g.childrenOf ∧
      (g.addNode id data).rankOf = g.rankOf ∧ (g.addNode id data).layerOf = g.layerOf :=
  reads_of_push g (Node.new id (.real data) g.realKeys.length) rfl rfl rfl rfl rfl

theorem reads_addWaypoint (id : String) (source target : NodeKey) :
    (g.addWaypoint id source target).parentsOf = g.parentsOf ∧
      (g.addWaypoint id source target).childrenOf = g.childrenOf ∧
      (g.addWaypoint id source target).rankOf = g.rankOf ∧
      (g.addWaypoint id source target).layerOf = g.layerOf :=
  reads_of_push g (Node.new id (.waypoint source target) g.waypointKeys.length)
    rfl rfl rfl rfl rfl

theorem isWaypoint_of_le {key : NodeKey} (h : g.nodes.size ≤ key) : g.isWaypoint key = false := by
  rw [isWaypoint, (g.node?_eq_none_iff key).2 h]
  rfl

theorem isWaypoint_addNode (id : String) (data : α) :
    (g.addNode id data).isWaypoint = g.isWaypoint := by
  funext key
  exact elim_of_push g (Node.new id (.real data) g.realKeys.length) rfl Node.isWaypoint key

theorem isWaypoint_addWaypoint (id : String) (source target key : NodeKey) :
    (g.addWaypoint id source target).isWaypoint key =
      (key == g.nodes.size || g.isWaypoint key) := by
  rw [isWaypoint, node?_addWaypoint, isWaypoint]
  by_cases hkey : key = g.nodes.size
  · simp [hkey, Node.isWaypoint, Node.ends?, Node.new]
  · simp [hkey]

theorem keys_of_push {node : Node α} (h : g'.nodes = g.nodes.push node) :
    g'.keys = g.keys ++ [g.nodes.size] := by
  simp [keys, h, List.range_succ]

theorem keys_addNode (id : String) (data : α) :
    (g.addNode id data).keys = g.keys ++ [g.nodes.size] :=
  keys_of_push g rfl

theorem keys_addWaypoint (id : String) (source target : NodeKey) :
    (g.addWaypoint id source target).keys = g.keys ++ [g.nodes.size] :=
  keys_of_push g rfl

/-! ## Changing edges -/

end JobGraph.Graph

namespace JobGraph.Node

variable {α : Type}

/-- A node without its edges: id, kind, index, place in the layout and position. -/
def withoutEdges (node : Node α) : Node α :=
  { node with parents := [], parentIndex := .empty, children := [], childIndex := .empty }

@[simp]
theorem ends?_withoutEdges (node : Node α) : node.withoutEdges.ends? = node.ends? := rfl

@[simp]
theorem isWaypoint_comp_withoutEdges : (isWaypoint ∘ withoutEdges : Node α → Bool) = isWaypoint := rfl

end JobGraph.Node

namespace JobGraph.Graph

variable {α : Type} (g : Graph α)

/-- What a key names, apart from its edges. -/
def bareNode? (key : NodeKey) : Option (Node α) :=
  (g.node? key).map Node.withoutEdges

variable {g} {g' : Graph α}

theorem rankOf_of_bareNode?_eq {key : NodeKey} (h : g'.bareNode? key = g.bareNode? key) :
    g'.rankOf key = g.rankOf key := by
  have := congrArg (fun node => node.bind Node.rank) h
  simpa [bareNode?, rankOf, Option.bind_map, Function.comp_def, Node.withoutEdges] using this

theorem layerOf_of_bareNode?_eq {key : NodeKey} (h : g'.bareNode? key = g.bareNode? key) :
    g'.layerOf key = g.layerOf key := by
  have := congrArg (fun node => node.bind Node.layer) h
  simpa [bareNode?, layerOf, Option.bind_map, Function.comp_def, Node.withoutEdges] using this

theorem ends?_of_bareNode?_eq {key : NodeKey} (h : g'.bareNode? key = g.bareNode? key) :
    (g'.node? key).bind Node.ends? = (g.node? key).bind Node.ends? := by
  have := congrArg (fun node => node.bind Node.ends?) h
  simpa [bareNode?, Option.bind_map, Function.comp_def] using this

theorem isWaypoint_of_bareNode?_eq {key : NodeKey} (h : g'.bareNode? key = g.bareNode? key) :
    g'.isWaypoint key = g.isWaypoint key := by
  have := congrArg (fun node => node.elim false Node.isWaypoint) h
  simpa [bareNode?, isWaypoint, Option.elim_map] using this

variable (g)

/-- A change of a node that concerns its edges only, by what it does to either list. -/
structure EdgeChange (change : Node α → Node α)
    (onParents onChildren : List NodeKey → List NodeKey) : Prop where
  parents : ∀ node, (change node).parents = onParents node.parents
  children : ∀ node, (change node).children = onChildren node.children
  withoutEdges : ∀ node, (change node).withoutEdges = node.withoutEdges

namespace EdgeChange

variable {g} {change : Node α → Node α} {onParents onChildren : List NodeKey → List NodeKey}

theorem bareNode?_modifyNode (hchange : EdgeChange change onParents onChildren)
    (key other : NodeKey) : (g.modifyNode key change).bareNode? other = g.bareNode? other := by
  rw [bareNode?, node?_modifyNode, bareNode?]
  split
  · cases g.node? other <;> simp [hchange.withoutEdges]
  · rfl

theorem parentsOf_modifyNode (hchange : EdgeChange change onParents onChildren) {key : NodeKey}
    (hkey : key < g.nodes.size ∨ onParents [] = []) (other : NodeKey) :
    (g.modifyNode key change).parentsOf other =
      if other = key then onParents (g.parentsOf other) else g.parentsOf other :=
  elim_modifyNode g Node.parents [] onParents hchange.parents hkey other

theorem childrenOf_modifyNode (hchange : EdgeChange change onParents onChildren) {key : NodeKey}
    (hkey : key < g.nodes.size ∨ onChildren [] = []) (other : NodeKey) :
    (g.modifyNode key change).childrenOf other =
      if other = key then onChildren (g.childrenOf other) else g.childrenOf other :=
  elim_modifyNode g Node.children [] onChildren hchange.children hkey other

end EdgeChange

/-- Adding an edge changes its two ends one after the other. -/
theorem addEdge_eq {dependent parent : NodeKey} (hdependent : dependent < g.nodes.size)
    (hparent : parent < g.nodes.size) :
    ∃ up down, EdgeChange up (· ++ [parent]) id ∧ EdgeChange down id (· ++ [dependent]) ∧
      g.addEdge dependent parent = (g.modifyNode dependent up).modifyNode parent down := by
  rw [addEdge, if_pos (by simp [has, hdependent, hparent])]
  refine ⟨_, _, ?_, ?_, rfl⟩
  · exact ⟨fun _ => rfl, fun _ => rfl, fun _ => rfl⟩
  · exact ⟨fun _ => rfl, fun _ => rfl, fun _ => rfl⟩

theorem addEdge_of_not_lt {dependent parent : NodeKey}
    (h : ¬ (dependent < g.nodes.size ∧ parent < g.nodes.size)) :
    g.addEdge dependent parent = g := by
  rw [addEdge, if_neg (by simpa [has] using h)]

/-- Removing an edge changes its two ends one after the other. -/
theorem removeEdge_eq {dependent parent : NodeKey} (hedge : parent ∈ g.parentsOf dependent) :
    ∃ up down, EdgeChange up (·.erase parent) id ∧ EdgeChange down id (·.erase dependent) ∧
      g.removeEdge dependent parent = (g.modifyNode dependent up).modifyNode parent down := by
  rw [removeEdge, if_pos (by simpa [hasEdge] using hedge)]
  refine ⟨_, _, ?_, ?_, rfl⟩
  · exact ⟨fun _ => rfl, fun _ => rfl, fun _ => rfl⟩
  · exact ⟨fun _ => rfl, fun _ => rfl, fun _ => rfl⟩

theorem removeEdge_of_not_mem {dependent parent : NodeKey}
    (hedge : parent ∉ g.parentsOf dependent) : g.removeEdge dependent parent = g := by
  rw [removeEdge, if_neg (by simpa [hasEdge] using hedge)]

/-- Bare nodes do not know about edges. -/
theorem bareNode?_addEdge (dependent parent key : NodeKey) :
    (g.addEdge dependent parent).bareNode? key = g.bareNode? key := by
  by_cases h : dependent < g.nodes.size ∧ parent < g.nodes.size
  · obtain ⟨up, down, hup, hdown, heq⟩ := g.addEdge_eq h.1 h.2
    rw [heq, hdown.bareNode?_modifyNode, hup.bareNode?_modifyNode]
  · rw [g.addEdge_of_not_lt h]

theorem bareNode?_removeEdge (dependent parent key : NodeKey) :
    (g.removeEdge dependent parent).bareNode? key = g.bareNode? key := by
  by_cases hedge : parent ∈ g.parentsOf dependent
  · obtain ⟨up, down, hup, hdown, heq⟩ := g.removeEdge_eq hedge
    rw [heq, hdown.bareNode?_modifyNode, hup.bareNode?_modifyNode]
  · rw [g.removeEdge_of_not_mem hedge]

/-- Edges are kept in the nodes, so nothing else changes with them. -/
theorem fields_addEdge (dependent parent : NodeKey) :
    (g.addEdge dependent parent).realKeys = g.realKeys ∧
      (g.addEdge dependent parent).waypointKeys = g.waypointKeys ∧
      (g.addEdge dependent parent).routed = g.routed ∧
      (g.addEdge dependent parent).ranking = g.ranking ∧
      (g.addEdge dependent parent).layers = g.layers := by
  unfold addEdge
  split <;> exact ⟨rfl, rfl, rfl, rfl, rfl⟩

theorem fields_removeEdge (dependent parent : NodeKey) :
    (g.removeEdge dependent parent).realKeys = g.realKeys ∧
      (g.removeEdge dependent parent).waypointKeys = g.waypointKeys ∧
      (g.removeEdge dependent parent).routed = g.routed ∧
      (g.removeEdge dependent parent).ranking = g.ranking ∧
      (g.removeEdge dependent parent).layers = g.layers := by
  unfold removeEdge
  split <;> exact ⟨rfl, rfl, rfl, rfl, rfl⟩

@[simp]
theorem nodes_size_addEdge (dependent parent : NodeKey) :
    (g.addEdge dependent parent).nodes.size = g.nodes.size := by
  unfold addEdge
  split <;> simp

@[simp]
theorem nodes_size_removeEdge (dependent parent : NodeKey) :
    (g.removeEdge dependent parent).nodes.size = g.nodes.size := by
  unfold removeEdge
  split <;> simp

theorem parentsOf_addEdge {dependent parent : NodeKey} (hdependent : dependent < g.nodes.size)
    (hparent : parent < g.nodes.size) (key : NodeKey) :
    (g.addEdge dependent parent).parentsOf key =
      if key = dependent then g.parentsOf key ++ [parent] else g.parentsOf key := by
  obtain ⟨up, down, hup, hdown, heq⟩ := g.addEdge_eq hdependent hparent
  rw [heq, hdown.parentsOf_modifyNode (.inr rfl), hup.parentsOf_modifyNode (.inl hdependent), id,
    ite_self]

theorem childrenOf_addEdge {dependent parent : NodeKey} (hdependent : dependent < g.nodes.size)
    (hparent : parent < g.nodes.size) (key : NodeKey) :
    (g.addEdge dependent parent).childrenOf key =
      if key = parent then g.childrenOf key ++ [dependent] else g.childrenOf key := by
  obtain ⟨up, down, hup, hdown, heq⟩ := g.addEdge_eq hdependent hparent
  rw [heq, hdown.childrenOf_modifyNode (.inl (by simpa using hparent)),
    hup.childrenOf_modifyNode (.inr rfl), id, ite_self]

theorem parentsOf_removeEdge (dependent parent key : NodeKey) :
    (g.removeEdge dependent parent).parentsOf key =
      if key = dependent then (g.parentsOf key).erase parent else g.parentsOf key := by
  by_cases hedge : parent ∈ g.parentsOf dependent
  · obtain ⟨up, down, hup, hdown, heq⟩ := g.removeEdge_eq hedge
    rw [heq, hdown.parentsOf_modifyNode (.inr rfl), hup.parentsOf_modifyNode (.inr rfl), id, ite_self]
  · rw [g.removeEdge_of_not_mem hedge]
    split
    · rename_i hkey
      rw [hkey, List.erase_of_not_mem hedge]
    · rfl

/-- The children of the former parent lose one occurrence, if there was an edge to remove. -/
theorem childrenOf_removeEdge {dependent parent : NodeKey}
    (hedge : parent ∈ g.parentsOf dependent) (key : NodeKey) :
    (g.removeEdge dependent parent).childrenOf key =
      if key = parent then (g.childrenOf key).erase dependent else g.childrenOf key := by
  obtain ⟨up, down, hup, hdown, heq⟩ := g.removeEdge_eq hedge
  rw [heq, hdown.childrenOf_modifyNode (.inr rfl), hup.childrenOf_modifyNode (.inr rfl), id, ite_self]

end JobGraph.Graph
