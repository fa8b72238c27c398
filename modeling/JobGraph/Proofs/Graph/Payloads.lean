import JobGraph.Proofs.Graph.Invariants
import JobGraph.Proofs.Graph.Records
import JobGraph.Proofs.Graph.Redrawing

/-!
# Graphs without their payloads

Payloads stand in the nodes, but no operation on edges or on the layout looks at them.  What is left
of a graph without them is `withoutData`: ids, edges, layout and positions.  A change of payloads
leaves all of it alone, so two graphs that agree in it read alike.

A node that was made from a record is named as the record says, and no layout renames it.
-/

namespace JobGraph

/-- A node without its payload. -/
def Node.withoutData {α : Type} (node : Node α) : Node Unit :=
  { node with
    kind := match node.kind with
      | .real _ => .real ()
      | .waypoint source target => .waypoint source target }

namespace Graph

variable {α : Type} {g g' : Graph α}

/-- A graph without the payloads of its nodes. -/
def withoutData (g : Graph α) : Graph Unit :=
  { g with nodes := g.nodes.map Node.withoutData }

theorem node?_withoutData (g : Graph α) (key : NodeKey) :
    g.withoutData.node? key = (g.node? key).map Node.withoutData := by
  simp [withoutData, node?]

/-! ## Changing payloads -/

theorem withoutData_modifyNode (g : Graph α) (key : NodeKey) {change : Node α → Node α}
    (hsame : ∀ node, (change node).withoutData = node.withoutData) :
    (g.modifyNode key change).withoutData = g.withoutData := by
  have hnodes : (g.nodes.modify key change).map Node.withoutData = g.nodes.map Node.withoutData := by
    apply Array.ext
    · simp
    · intro i _ _
      rw [Array.getElem_map, Array.getElem_map, Array.getElem_modify]
      split
      · exact hsame _
      · rfl
  rw [withoutData, withoutData, modifyNode, hnodes]

theorem withoutData_modifyData (g : Graph α) (key : NodeKey) (change : α → α) :
    (g.modifyData key change).withoutData = g.withoutData := by
  unfold modifyData setData
  split
  · rfl
  · refine withoutData_modifyNode g key fun node => ?_
    cases hkind : node.kind <;> simp [Node.withoutData, hkind]

/-! ## Reading -/

theorem id?_of_withoutData_eq (h : g'.withoutData = g.withoutData) : g'.id? = g.id? := by
  have hread : ∀ g : Graph α, g.withoutData.id? = g.id? := by
    intro g
    funext key
    rw [id?, node?_withoutData, Option.map_map, id?]
    rfl
  rw [← hread, h, hread]

theorem rankOf_of_withoutData_eq (h : g'.withoutData = g.withoutData) : g'.rankOf = g.rankOf := by
  have hread : ∀ g : Graph α, g.withoutData.rankOf = g.rankOf := by
    intro g
    funext key
    rw [rankOf, node?_withoutData, Option.bind_map, rankOf]
    rfl
  rw [← hread, h, hread]

theorem ranking_of_withoutData_eq (h : g'.withoutData = g.withoutData) : g'.ranking = g.ranking := by
  have hranking : g'.withoutData.ranking = g.withoutData.ranking := by rw [h]
  exact hranking

/-! ## Names -/

/-- Every real node has the id that its payload says. -/
def NamedBy (id : α → String) (g : Graph α) : Prop :=
  ∀ key data, g.data? key = some data → g.id? key = some (id data)

namespace NamedBy

variable {id : α → String}

theorem addNode (h : NamedBy id g) (record : α) : NamedBy id (g.addNode (id record) record) := by
  intro key data hdata
  have hpush : (g.addNode (id record) record).nodes =
      g.nodes.push (Node.new (id record) (.real record) g.realKeys.length) := rfl
  have hnode := node?_of_push g hpush key
  rw [data?, hnode] at hdata
  rw [id?, hnode]
  split at hdata
  · rename_i hkey
    rw [if_pos hkey, ← Option.some.inj hdata]
    rfl
  · rename_i hkey
    rw [if_neg hkey]
    exact h key data hdata

theorem addEdge (h : NamedBy id g) (dependent parent : NodeKey) :
    NamedBy id (g.addEdge dependent parent) := by
  intro key data hdata
  rw [data?_of_bareNode?_eq (g.bareNode?_addEdge dependent parent key)] at hdata
  rw [id?_addEdge]
  exact h key data hdata

theorem addEdgesTo (h : NamedBy id g) (dependent : NodeKey) (parentIds : List String) :
    NamedBy id (g.addEdgesTo dependent parentIds) := by
  refine List.foldlRecOn parentIds _ h fun next hnext name _ => ?_
  cases next.find? name with
  | none => exact hnext
  | some parent => exact hnext.addEdge dependent parent

end NamedBy

/-- Nodes that were made from records are named as the records say. -/
theorem namedBy_ofRecords (id : α → String) (parentIds : α → List String) (records : List α) :
    NamedBy id (ofRecords id parentIds records) := by
  have hbare : NamedBy id (records.foldl (fun g record => g.addNode (id record) record) .empty) :=
    List.foldlRecOn records _ (fun _ _ hdata => absurd hdata (by simp [empty, data?, node?]))
      fun _ hg record _ =>
      hg.addNode record
  exact List.foldlRecOn records.zipIdx _ hbare fun _ hg numbered _ =>
    hg.addEdgesTo numbered.2 (parentIds numbered.1)

/-- No layout renames a node. -/
theorem id?_layOut (h : Consistent g) (options : LayoutOptions) {key : NodeKey} {id : String}
    (hid : g.id? key = some id) : (g.layOut options).1.id? key = some id := by
  refine h.layOut_induction (P := fun next => next.id? key = some id) ?_ ?_ ?_ options hid
  · intro next policy hconsistent hnext
    rwa [(hconsistent.toLinked.alike_assignLayers policy).id?_eq]
  · intro next _ hnext
    refine routeLongEdges_induction (P := fun next => next.id? key = some id) ?_ ?_ ?_ ?_ hnext
    · intro next hnext
      rwa [next.alike_markRouted.id?_eq]
    · intro next dependent parent hnext
      rwa [id?_addEdge]
    · intro next dependent parent hnext
      rwa [id?_removeEdge]
    · intro next base source target layer hnext
      exact (next.enlarged_withWaypoint _ source target layer).id?_of_id? hnext
  · intro next sweeps hnext
    rwa [(next.alike_orderLayers sweeps).id?_eq]

theorem NamedBy.layOut {id : α → String} (h : NamedBy id g) (hconsistent : Consistent g)
    (options : LayoutOptions) : NamedBy id (g.layOut options).1 := by
  intro key data hdata
  rw [(redrawn_layOut hconsistent options).2.data?_eq] at hdata
  exact id?_layOut hconsistent options (h key data hdata)

end Graph

end JobGraph
