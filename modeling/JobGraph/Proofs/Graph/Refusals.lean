import JobGraph.Proofs.Graph.LayoutFailures
import JobGraph.Proofs.Graph.Layouts

/-!
# What a graph refuses

A graph carries two marks: that it is sorted, and that it was routed.  An operation that a mark
forbids is refused, and leaves the graph exactly as it was.  A strict layering that finds a cycle
fails as well, but it takes the old layout away.

* **Marks.**  Routing needs a sorted graph, and a routed graph refuses to be layered again.  So a
  routed graph is sorted, and it remains both for ever.
* **Layouts.**  The layering of a layout leaves the graph sorted and not yet routed, which is all
  that the steps behind it ask for.  Hence a layout that fails has only tried its layering, and one
  that succeeds has taken every step it was asked for.
-/

namespace JobGraph.Graph

variable {α : Type} {g g' : Graph α}

/-! ## Refusals -/

theorem assignLayers_of_routed (hrouted : g.routed = true) (policy : CyclePolicy) :
    g.assignLayers policy = (g, .error .resort) := by
  rw [assignLayers, if_pos hrouted]

theorem routeLongEdges_of_not_sorted (hunsorted : g.sorted = false) :
    g.routeLongEdges = (g, .error .notSorted) := by
  rw [routeLongEdges, hunsorted]
  rfl

theorem routeLongEdges_of_routed (hsorted : g.sorted = true) (hrouted : g.routed = true) :
    g.routeLongEdges = (g, .error .routedTwice) := by
  rw [routeLongEdges, hsorted, hrouted]
  rfl

theorem orderLayers_of_not_sorted (hunsorted : g.sorted = false) (sweeps : Nat) :
    g.orderLayers sweeps = (g, .error .notSorted) := by
  rw [orderLayers, hunsorted]
  rfl

theorem layOut_of_error {options : LayoutOptions} {error : GraphError}
    (hfails : g.assignLayers options.cyclePolicy = (g', .error error)) :
    g.layOut options = (g', .error error) := by
  rw [layOut, hfails]

theorem routeLongEdges_refused_iff (error : GraphError) :
    g.routeLongEdges.2 = .error error ↔
      g.sorted = false ∧ error = .notSorted ∨
        (g.sorted = true ∧ g.routed = true) ∧ error = .routedTwice := by
  cases hsorted : g.sorted with
  | false =>
      rw [routeLongEdges_of_not_sorted hsorted, Except.error.injEq, @eq_comm _ GraphError.notSorted]
      simp
  | true =>
      cases hrouted : g.routed with
      | true =>
          rw [routeLongEdges_of_routed hsorted hrouted, Except.error.injEq,
            @eq_comm _ GraphError.routedTwice]
          simp
      | false =>
          obtain ⟨count, hcount⟩ := answer_routeLongEdges_of_sorted hsorted hrouted
          rw [hcount]
          simp

theorem routeLongEdges_fst_of_error {error : GraphError}
    (hfails : g.routeLongEdges.2 = .error error) :
    g.routeLongEdges.1 = g ∧ (g.sorted = false ∨ g.routed = true) := by
  rcases (g.routeLongEdges_refused_iff error).1 hfails with ⟨hsorted, -⟩ | ⟨⟨hsorted, hrouted⟩, -⟩
  · rw [routeLongEdges_of_not_sorted hsorted]
    exact ⟨rfl, .inl hsorted⟩
  · rw [routeLongEdges_of_routed hsorted hrouted]
    exact ⟨rfl, .inr hrouted⟩

theorem orderLayers_refused_iff (sweeps : Nat) (error : GraphError) :
    (g.orderLayers sweeps).2 = .error error ↔ error = .notSorted ∧ g.sorted = false := by
  cases hsorted : g.sorted with
  | false =>
      rw [orderLayers_of_not_sorted hsorted]
      simp [eq_comm]
  | true =>
      rw [answer_orderLayers_of_sorted hsorted]
      simp

theorem crossings_refused_iff (error : GraphError) :
    g.crossings = .error error ↔ error = .notSorted ∧ g.sorted = false := by
  rw [crossings]
  cases hsorted : g.sorted with
  | false => simp [eq_comm]
  | true => simp

/-- A layering that fails was refused, or has found a cycle. -/
theorem assignLayers_eq_of_error {policy : CyclePolicy} {error : GraphError}
    (hfails : (g.assignLayers policy).2 = .error error) :
    (g.routed = true ∧ g.assignLayers policy = (g, .error .resort)) ∨
      (g.routed = false ∧ ∃ ids, g.assignLayers policy = (g.clearLayout, .error (.cycle ids))) := by
  cases hrouted : g.routed with
  | true => exact .inl ⟨rfl, assignLayers_of_routed hrouted policy⟩
  | false =>
      rw [assignLayers_of_unrouted hrouted] at hfails ⊢
      split at hfails
      · rename_i hcycle
        rw [if_pos hcycle]
        exact .inr ⟨rfl, _, rfl⟩
      · exact absurd hfails nofun

theorem invalidState_assignLayers_iff (policy : CyclePolicy) :
    (∃ reason, (g.assignLayers policy).2 = .error (.invalidState reason)) ↔ g.routed = true := by
  constructor
  · rintro ⟨reason, hfails⟩
    rcases assignLayers_eq_of_error hfails with ⟨hrouted, -⟩ | ⟨-, ids, heq⟩
    · exact hrouted
    · rw [heq] at hfails
      exact absurd hfails nofun
  · intro hrouted
    rw [assignLayers_of_routed hrouted]
    exact ⟨_, rfl⟩

/-! ## Routed graphs are sorted -/

/-- A graph that was routed is sorted. -/
def SortedIfRouted (g : Graph α) : Prop :=
  g.routed = true → g.sorted = true

theorem SortedIfRouted.congr (h : SortedIfRouted g) (hrouted : g'.routed = g.routed)
    (hsorted : g'.sorted = g.sorted) : SortedIfRouted g' := by
  rwa [SortedIfRouted, hrouted, hsorted]

theorem SortedIfRouted.addEdge (h : SortedIfRouted g) (dependent parent : NodeKey) :
    SortedIfRouted (g.addEdge dependent parent) :=
  h.congr (g.fields_addEdge dependent parent).2.2.1 (g.sorted_addEdge dependent parent)

theorem SortedIfRouted.assignLayers (h : SortedIfRouted g) (policy : CyclePolicy) :
    SortedIfRouted (g.assignLayers policy).1 := by
  cases hrouted : g.routed with
  | true =>
      rw [assignLayers_of_routed hrouted]
      exact h
  | false =>
      rw [assignLayers_of_unrouted hrouted]
      split
      · exact fun hcleared => absurd (hrouted.symm.trans hcleared) Bool.false_ne_true
      · exact fun _ => rfl

theorem SortedIfRouted.routeLongEdges (h : SortedIfRouted g) :
    SortedIfRouted g.routeLongEdges.1 := by
  cases hsorted : g.sorted with
  | true => exact fun _ => (sorted_routeLongEdges g).trans hsorted
  | false =>
      rw [routeLongEdges_of_not_sorted hsorted]
      exact h

theorem SortedIfRouted.orderLayers (h : SortedIfRouted g) (sweeps : Nat) :
    SortedIfRouted (g.orderLayers sweeps).1 := by
  obtain ⟨layers, heq, -⟩ := g.orderLayers_fst sweeps
  rw [heq]
  exact h

/-- One operation keeps a graph sorted if it was routed. -/
theorem SortedIfRouted.perform (h : SortedIfRouted g) (operation : Operation α) :
    SortedIfRouted (g.perform operation) := by
  cases operation with
  | addNode id data => exact h
  | addEdge dependent parent => exact h.addEdge dependent parent
  | removeEdge dependent parent =>
      exact h.congr (g.fields_removeEdge dependent parent).2.2.1
        (g.sorted_removeEdge dependent parent)
  | setData key data => exact h
  | setPosition key position => exact h
  | assignLayers policy => exact h.assignLayers policy
  | routeLongEdges => exact h.routeLongEdges
  | orderLayers sweeps => exact h.orderLayers sweeps
  | layOut options =>
      exact layOut_induction (fun _ policy h => h.assignLayers policy) (fun _ h => h.routeLongEdges)
        (fun _ sweeps h => h.orderLayers sweeps) options h

theorem sortedIfRouted_empty : SortedIfRouted (empty : Graph α) :=
  fun hrouted => absurd hrouted Bool.false_ne_true

theorem Reachable.sortedIfRouted (h : Reachable g) : SortedIfRouted g := by
  induction h with
  | empty => exact sortedIfRouted_empty
  | ofRecords id parentIds records =>
      exact ofRecords_induction sortedIfRouted_empty (fun _ _ _ h => h)
        (fun _ dependent parent h => h.addEdge dependent parent) id parentIds records
  | perform _ operation ih => exact ih.perform operation

/-- One operation leaves a graph routed. -/
theorem routed_perform (hsorted : g.sorted = true) (hrouted : g.routed = true)
    (operation : Operation α) : (g.perform operation).routed = true := by
  cases operation with
  | addNode id data => exact hrouted
  | addEdge dependent parent => exact (g.fields_addEdge dependent parent).2.2.1.trans hrouted
  | removeEdge dependent parent => exact (g.fields_removeEdge dependent parent).2.2.1.trans hrouted
  | setData key data => exact hrouted
  | setPosition key position => exact hrouted
  | assignLayers policy =>
      rw [perform, assignLayers_of_routed hrouted]
      exact hrouted
  | routeLongEdges =>
      rw [perform, routeLongEdges_of_routed hsorted hrouted]
      exact hrouted
  | orderLayers sweeps =>
      obtain ⟨layers, heq, -⟩ := g.orderLayers_fst sweeps
      rw [perform, heq]
      exact hrouted
  | layOut options =>
      rw [perform, layOut_of_error (assignLayers_of_routed hrouted options.cyclePolicy)]
      exact hrouted

/-- A routed graph remains routed and sorted. -/
theorem SortedIfRouted.run (h : SortedIfRouted g) (hrouted : g.routed = true)
    (operations : List (Operation α)) :
    (g.run operations).routed = true ∧ (g.run operations).sorted = true := by
  induction operations generalizing g with
  | nil => exact ⟨hrouted, h hrouted⟩
  | cons operation rest ih =>
      exact ih (h.perform operation) (routed_perform (h hrouted) hrouted operation)

/-! ## Layouts -/

/-- `g'` is `g` laid out: each step that was asked for was taken and has succeeded. -/
structure LaidOut (g : Graph α) (options : LayoutOptions) (report : LayeringReport)
    (g' : Graph α) : Prop where
  steps : ∃ layered routed,
    g.assignLayers options.cyclePolicy = (layered, .ok report) ∧
      (if options.routed then ∃ count, layered.routeLongEdges = (routed, .ok count)
        else routed = layered) ∧
      (if 0 < options.sweeps then routed.orderLayers options.sweeps = (g', .ok ())
        else g' = routed)
  sorted_eq : g'.sorted = true
  routed_eq : g'.routed = options.routed

theorem Consistent.routed_routeLongEdges_eq (h : Consistent g) (hsorted : g.sorted = true)
    (hunrouted : g.routed = false) : g.routeLongEdges.1.routed = true := by
  obtain ⟨state, chains, heq, hsplitting, -⟩ :=
    exists_splitting_routeLongEdges h hsorted hunrouted
  rw [heq]
  exact hsplitting.routed_eq

/-- A graph that was just layered is routed when that is wanted. -/
theorem Consistent.exists_routed (h : Consistent g) (hsorted : g.sorted = true)
    (hunrouted : g.routed = false) (wanted : Bool) :
    ∃ routed count, (if wanted then g.routeLongEdges else (g, .ok 0)) = (routed, .ok count) ∧
      (if wanted then ∃ count, g.routeLongEdges = (routed, .ok count) else routed = g) ∧
      routed.sorted = true ∧ routed.routed = wanted := by
  cases wanted with
  | false => exact ⟨g, 0, rfl, rfl, hsorted, hunrouted⟩
  | true =>
      obtain ⟨count, hcount⟩ := answer_routeLongEdges_of_sorted hsorted hunrouted
      have hok : g.routeLongEdges = (g.routeLongEdges.1, .ok count) := Prod.ext rfl hcount
      exact ⟨_, count, hok, ⟨count, hok⟩, (sorted_routeLongEdges g).trans hsorted,
        h.routed_routeLongEdges_eq hsorted hunrouted⟩

/-- A sorted graph is ordered when that is wanted. -/
theorem exists_ordered (hsorted : g.sorted = true) (sweeps : Nat) :
    ∃ ordered, (if 0 < sweeps then g.orderLayers sweeps else (g, .ok ())) = (ordered, .ok ()) ∧
      (if 0 < sweeps then g.orderLayers sweeps = (ordered, .ok ()) else ordered = g) ∧
      ordered.sorted = true ∧ ordered.routed = g.routed := by
  by_cases hwanted : 0 < sweeps
  · obtain ⟨layers, heq, -⟩ := g.orderLayers_fst sweeps
    have hok : g.orderLayers sweeps = ({ g with layers }, .ok ()) :=
      Prod.ext heq (answer_orderLayers_of_sorted hsorted sweeps)
    rw [if_pos hwanted]
    exact ⟨_, hok, (if_pos hwanted).mpr hok, hsorted, rfl⟩
  · rw [if_neg hwanted]
    exact ⟨g, rfl, (if_neg hwanted).mpr rfl, hsorted, rfl⟩

/-- The steps behind the layering do not fail. -/
theorem Consistent.laidOut (h : Consistent g) {options : LayoutOptions} {layered : Graph α}
    {report : LayeringReport}
    (hok : g.assignLayers options.cyclePolicy = (layered, .ok report)) :
    ∃ result, g.layOut options = (result, .ok report) ∧ LaidOut g options report result := by
  obtain ⟨hsorted, hunrouted⟩ := h.toLinked.sorted_of_assignLayers_eq_ok hok
  have hlayered : Consistent layered := by
    rw [show layered = (g.assignLayers options.cyclePolicy).1 by rw [hok]]
    exact h.assignLayers options.cyclePolicy
  obtain ⟨routed, count, hroute, hrouting, hsorted, hrouted⟩ :=
    hlayered.exists_routed hsorted hunrouted options.routed
  obtain ⟨result, horder, hordering, hsorted, hsame⟩ := exists_ordered hsorted options.sweeps
  refine ⟨result, ?_, ⟨layered, routed, hok, hrouting, hordering⟩, hsorted, hsame.trans hrouted⟩
  rw [Graph.layOut, hok]
  simp only [hroute, horder]

/-- A layout ends with its layering, or takes all its steps. -/
theorem Consistent.layOut_cases (h : Consistent g) (options : LayoutOptions) :
    (∃ error, (g.assignLayers options.cyclePolicy).2 = .error error ∧
        g.layOut options = g.assignLayers options.cyclePolicy) ∨
      ∃ report, g.layOut options = ((g.layOut options).1, .ok report) ∧
        (g.assignLayers options.cyclePolicy).2 = .ok report ∧
        LaidOut g options report (g.layOut options).1 := by
  cases hanswer : (g.assignLayers options.cyclePolicy).2 with
  | error error =>
      have hfails : g.assignLayers options.cyclePolicy =
          ((g.assignLayers options.cyclePolicy).1, .error error) := Prod.ext rfl hanswer
      exact .inl ⟨error, rfl, (layOut_of_error hfails).trans hfails.symm⟩
  | ok report =>
      obtain ⟨result, heq, hlaid⟩ := h.laidOut (Prod.ext rfl hanswer)
      rw [heq]
      exact .inr ⟨report, rfl, rfl, hlaid⟩

/-- A layout that fails leaves what its layering leaves. -/
theorem Consistent.layOut_fst_of_error (h : Consistent g) {options : LayoutOptions}
    {error : GraphError} (hfails : (g.layOut options).2 = .error error) :
    (g.layOut options).1 = (g.assignLayers options.cyclePolicy).1 := by
  rcases h.layOut_cases options with ⟨_, -, heq⟩ | ⟨_, heq, -, -⟩
  · rw [heq]
  · rw [heq] at hfails
    exact absurd hfails nofun

theorem Consistent.laidOut_of_ok (h : Consistent g) {options : LayoutOptions}
    {report : LayeringReport} (hok : (g.layOut options).2 = .ok report) :
    LaidOut g options report (g.layOut options).1 := by
  rcases h.layOut_cases options with ⟨error, hfails, heq⟩ | ⟨other, heq, -, hlaid⟩
  · rw [heq, hfails] at hok
    exact absurd hok nofun
  · rw [heq] at hok
    rwa [← Except.ok.inj hok]

/-- A layout that leaves the graph sorted was refused, or has taken all its steps. -/
theorem Consistent.layOut_of_sorted (h : Consistent g) {options : LayoutOptions}
    (hsorted : (g.layOut options).1.sorted = true) :
    (g.routed = true ∧ g.layOut options = (g, .error .resort)) ∨
      ∃ report, g.layOut options = ((g.layOut options).1, .ok report) ∧
        LaidOut g options report (g.layOut options).1 := by
  rcases h.layOut_cases options with ⟨error, hfails, heq⟩ | ⟨report, heq, -, hlaid⟩
  · rw [heq] at hsorted ⊢
    rcases assignLayers_eq_of_error hfails with hrefused | ⟨-, ids, heq⟩
    · exact .inl hrefused
    · -- a strict layering that finds a cycle leaves no layout
      rw [heq] at hsorted
      exact absurd hsorted Bool.false_ne_true
  · exact .inr ⟨report, heq, hlaid⟩

/-! ## Reachable graphs -/

/-- What the operations on layouts refuse, and what failing leaves. -/
structure Refusals (g : Graph α) : Prop where
  /-- Routing asks for a sorted graph, -/
  route_notSorted : g.routeLongEdges.2 = .error .notSorted ↔ g.sorted = false
  /-- and for one that was not routed, -/
  route_invalidState : (∃ reason, g.routeLongEdges.2 = .error (.invalidState reason)) ↔
    g.sorted = true ∧ g.routed = true
  /-- and for nothing else. -/
  route_failed : ∀ error, g.routeLongEdges.2 = .error error →
    g.routeLongEdges.1 = g ∧ (g.sorted = false ∨ g.routed = true)
  order_failed : ∀ sweeps error, (g.orderLayers sweeps).2 = .error error ↔
    error = .notSorted ∧ g.sorted = false
  order_eq : ∀ sweeps error, (g.orderLayers sweeps).2 = .error error →
    (g.orderLayers sweeps).1 = g
  crossings_failed : ∀ error, g.crossings = .error error ↔ error = .notSorted ∧ g.sorted = false
  /-- Layering refuses routed graphs.  Otherwise it can only fail on a cycle. -/
  layer_invalidState : ∀ policy,
    (∃ reason, (g.assignLayers policy).2 = .error (.invalidState reason)) ↔ g.routed = true
  layer_failed : ∀ policy error, (g.assignLayers policy).2 = .error error →
    (g.routed = true ∧ (g.assignLayers policy).1 = g) ∨
      ∃ ids, error = .cycle ids ∧ (g.assignLayers policy).1 = g.clearLayout
  /-- A layout fails like its layering, -/
  layOut_failed : ∀ options error, (g.layOut options).2 = .error error ↔
    (g.assignLayers options.cyclePolicy).2 = .error error
  layOut_eq : ∀ options error, (g.layOut options).2 = .error error →
    (g.layOut options).1 = (g.assignLayers options.cyclePolicy).1
  /-- or it takes all its steps. -/
  laidOut : ∀ options report, (g.layOut options).2 = .ok report →
    LaidOut g options report (g.layOut options).1
  /-- So it leaves no sorted graph half laid out: one that fails and leaves the graph sorted was
  refused. -/
  layOut_sorted : ∀ options, (g.layOut options).1.sorted = true →
    (g.routed = true ∧ g.layOut options = (g, .error .resort)) ∨
      ∃ report, g.layOut options = ((g.layOut options).1, .ok report) ∧
        LaidOut g options report (g.layOut options).1
  /-- Once routed, a graph remains routed and sorted. -/
  run : ∀ operations, g.routed = true →
    (g.run operations).routed = true ∧ (g.run operations).sorted = true

/-- **Refusals.**  What the operations on a reachable graph refuse is decided by its marks. -/
theorem Reachable.refusals (h : Reachable g) : Refusals g := by
  have hconsistent := h.consistent
  refine { route_notSorted := ?_, route_invalidState := ?_,
           route_failed := fun error hfails => routeLongEdges_fst_of_error hfails,
           order_failed := g.orderLayers_refused_iff, order_eq := ?_,
           crossings_failed := g.crossings_refused_iff,
           layer_invalidState := g.invalidState_assignLayers_iff, layer_failed := ?_,
           layOut_failed := ?_,
           layOut_eq := fun options error hfails => hconsistent.layOut_fst_of_error hfails,
           laidOut := fun options report hok => hconsistent.laidOut_of_ok hok,
           layOut_sorted := fun options hsorted => hconsistent.layOut_of_sorted hsorted,
           run := fun operations hrouted => h.sortedIfRouted.run hrouted operations }
  · rw [routeLongEdges_refused_iff]
    simp [GraphError.routedTwice]
  · simp [routeLongEdges_refused_iff, GraphError.routedTwice]
  · intro sweeps error hfails
    rw [orderLayers_of_not_sorted ((g.orderLayers_refused_iff sweeps error).1 hfails).2]
  · intro policy error hfails
    rcases assignLayers_eq_of_error hfails with ⟨hrouted, heq⟩ | ⟨-, ids, heq⟩
    · rw [heq]
      exact .inl ⟨hrouted, rfl⟩
    · rw [heq] at hfails ⊢
      exact .inr ⟨ids, (Except.error.inj hfails).symm, rfl⟩
  · intro options error
    rw [hconsistent.toLinked.answer_layOut]

theorem refusals_shortcut :
    Reachable (shortcut.perform (.layOut .default)) ∧
      Refusals (shortcut.perform (.layOut .default)) ∧
      (shortcut.perform (.layOut .default)).routed = true := by
  have hreachable : Reachable (shortcut.perform (.layOut .default)) :=
    reachable_shortcut.perform (.layOut .default)
  exact ⟨hreachable, hreachable.refusals, by decide +kernel⟩

end JobGraph.Graph
