import JobGraph.Graph.Layout
import JobGraph.Proofs.Graph.Layering
import JobGraph.Proofs.Graph.Ordering
import JobGraph.Proofs.Graph.RoutedEdges

/-!
# Reachable graphs

A graph starts empty or from a list of records and changes by operations, in any order.  Operations
on a layout may fail; the graph they leave is reachable as well.  Every reachable graph is
`Consistent`.
-/

namespace JobGraph.Graph

variable {α : Type} {g : Graph α}

/-- A change of a graph. -/
inductive Operation (α : Type) where
  | addNode (id : String) (data : α)
  | addEdge (dependent parent : NodeKey)
  | removeEdge (dependent parent : NodeKey)
  | setData (key : NodeKey) (data : α)
  | setPosition (key : NodeKey) (position : Position)
  | assignLayers (policy : CyclePolicy)
  | routeLongEdges
  | orderLayers (sweeps : Nat)
  | layOut (options : LayoutOptions)

/-- The graph after an operation, whether it fails or not. -/
def perform (g : Graph α) : Operation α → Graph α
  | .addNode id data => g.addNode id data
  | .addEdge dependent parent => g.addEdge dependent parent
  | .removeEdge dependent parent => g.removeEdge dependent parent
  | .setData key data => g.setData key data
  | .setPosition key position => g.setPosition key position
  | .assignLayers policy => (g.assignLayers policy).1
  | .routeLongEdges => g.routeLongEdges.1
  | .orderLayers sweeps => (g.orderLayers sweeps).1
  | .layOut options => (g.layOut options).1

/-- The graph after a list of operations. -/
def run (g : Graph α) (operations : List (Operation α)) : Graph α :=
  operations.foldl perform g

/-- Graphs that operations lead to. -/
inductive Reachable : Graph α → Prop
  | empty : Reachable empty
  | ofRecords (id : α → String) (parentIds : α → List String) (records : List α) :
      Reachable (ofRecords id parentIds records)
  | perform {g : Graph α} (h : Reachable g) (operation : Operation α) :
      Reachable (g.perform operation)

theorem Reachable.run (h : Reachable g) (operations : List (Operation α)) :
    Reachable (g.run operations) := by
  induction operations generalizing g with
  | nil => exact h
  | cons operation rest ih => exact ih (h.perform operation)

/-! ## Layouts step by step -/

/-- A layout is laid out step by step, so it keeps what each of its steps keeps. -/
theorem layOut_induction {P : Graph α → Prop}
    (hassign : ∀ (g : Graph α) (policy : CyclePolicy), P g → P (g.assignLayers policy).1)
    (hroute : ∀ g : Graph α, P g → P g.routeLongEdges.1)
    (horder : ∀ (g : Graph α) (sweeps : Nat), P g → P (g.orderLayers sweeps).1)
    (options : LayoutOptions) (h : P g) : P (g.layOut options).1 := by
  have hlayered := hassign g options.cyclePolicy h
  unfold Graph.layOut
  split
  · rename_i layered error heq
    rwa [heq] at hlayered
  · rename_i layered report heq
    rw [heq] at hlayered
    -- routing and ordering may be left out, and then the graph stays as it is
    have hrouted : P (if options.routed then layered.routeLongEdges
        else (layered, Except.ok 0)).1 := by
      split
      · exact hroute layered hlayered
      · exact hlayered
    split
    · rename_i routed error heq'
      rwa [heq'] at hrouted
    · rename_i routed count heq'
      rw [heq'] at hrouted
      have hordered : P (if 0 < options.sweeps then routed.orderLayers options.sweeps
          else (routed, Except.ok ())).1 := by
        split
        · exact horder routed options.sweeps hrouted
        · exact hrouted
      split
      · rename_i ordered error heq''
        rwa [heq''] at hordered
      · rename_i ordered _ heq''
        rwa [heq''] at hordered

/-! ## Consistency -/

theorem Consistent.layOut (h : Consistent g) (options : LayoutOptions) :
    Consistent (g.layOut options).1 :=
  layOut_induction (fun _ policy h => h.assignLayers policy) (fun _ h => h.routeLongEdges)
    (fun _ sweeps h => h.orderLayers sweeps) options h

/-- All steps of a layout find a consistent graph. -/
theorem Consistent.layOut_induction {P : Graph α → Prop} (h : Consistent g)
    (hassign : ∀ (g : Graph α) (policy : CyclePolicy), Consistent g → P g →
      P (g.assignLayers policy).1)
    (hroute : ∀ g : Graph α, Consistent g → P g → P g.routeLongEdges.1)
    (horder : ∀ (g : Graph α) (sweeps : Nat), P g → P (g.orderLayers sweeps).1)
    (options : LayoutOptions) (hg : P g) : P (g.layOut options).1 := by
  refine (Graph.layOut_induction (P := fun g => Consistent g ∧ P g) ?_ ?_ ?_ options ⟨h, hg⟩).2
  · intro g policy ⟨hc, hg⟩
    exact ⟨hc.assignLayers policy, hassign g policy hc hg⟩
  · intro g ⟨hc, hg⟩
    exact ⟨hc.routeLongEdges, hroute g hc hg⟩
  · intro g sweeps ⟨hc, hg⟩
    exact ⟨hc.orderLayers sweeps, horder g sweeps hg⟩

/-- One operation keeps a graph consistent. -/
theorem Consistent.perform (h : Consistent g) (operation : Operation α) :
    Consistent (g.perform operation) := by
  cases operation with
  | addNode id data => exact h.addNode id data
  | addEdge dependent parent => exact h.addEdge dependent parent
  | removeEdge dependent parent => exact h.removeEdge dependent parent
  | setData key data => exact h.setData key data
  | setPosition key position => exact h.setPosition key position
  | assignLayers policy => exact h.assignLayers policy
  | routeLongEdges => exact h.routeLongEdges
  | orderLayers sweeps => exact h.orderLayers sweeps
  | layOut options => exact h.layOut options

/-- **Consistency.**  Every reachable graph is consistent. -/
theorem Reachable.consistent (h : Reachable g) : Consistent g := by
  induction h with
  | empty => exact consistent_empty
  | ofRecords id parentIds records => exact consistent_ofRecords id parentIds records
  | perform _ operation ih => exact ih.perform operation

end JobGraph.Graph
