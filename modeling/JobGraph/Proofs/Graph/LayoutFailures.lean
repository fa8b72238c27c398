import JobGraph.Proofs.Graph.StrictLayering

/-!
# When a layout fails

A layout takes up to three steps, and the first one that fails ends it.  But routing and ordering
find a graph that the layering has just sorted, so that only the layering can fail: a layout answers
what its layering answers.  On a graph that was not routed, it fails when the layering is strict and
there is a cycle.
-/

namespace JobGraph.Graph

variable {α : Type} {g g' : Graph α}

theorem answer_routeLongEdges_of_sorted (hsorted : g.sorted = true) (hunrouted : g.routed = false) :
    ∃ count, g.routeLongEdges.2 = .ok count := by
  rw [routeLongEdges, hsorted, hunrouted]
  exact ⟨_, rfl⟩

theorem answer_orderLayers_of_sorted (hsorted : g.sorted = true) (sweeps : Nat) :
    (g.orderLayers sweeps).2 = .ok () := by
  rw [orderLayers, hsorted, if_neg (by simp)]
  split <;> rfl

/-- A layering that succeeds leaves the graph sorted and still without waypoints. -/
theorem Linked.sorted_of_assignLayers_eq_ok (h : Linked g) {policy : CyclePolicy}
    {report : LayeringReport} (hok : g.assignLayers policy = (g', .ok report)) :
    g'.sorted = true ∧ g'.routed = false := by
  obtain ⟨hunrouted, rfl, -⟩ := eq_compacted_of_assignLayers hok
  have hrouted : g.compacted.clearLayout.routed = g.clearLayout.routed := by
    rw [clearLayout_compacted h hunrouted]
  exact ⟨rfl, hrouted.trans hunrouted⟩

/-- A layout answers what its layering answers. -/
theorem Linked.answer_layOut (h : Linked g) (options : LayoutOptions) :
    (g.layOut options).2 = (g.assignLayers options.cyclePolicy).2 := by
  unfold layOut
  split
  · rename_i heq
    rw [heq]
  · rename_i layered report heq
    obtain ⟨hsorted, hunrouted⟩ := h.sorted_of_assignLayers_eq_ok heq
    obtain ⟨count, hcount⟩ := answer_routeLongEdges_of_sorted hsorted hunrouted
    rw [heq]
    -- whether the graph is routed or not, it stays sorted
    have hrouted : ∃ routed count, (if options.routed then layered.routeLongEdges
        else (layered, Except.ok 0)) = (routed, .ok count) ∧ routed.sorted = true := by
      split
      · exact ⟨_, count, Prod.ext rfl hcount, (sorted_routeLongEdges layered).trans hsorted⟩
      · exact ⟨layered, 0, rfl, hsorted⟩
    obtain ⟨routed, count, hrouted, hsorted⟩ := hrouted
    have hordered : ∃ ordered, (if 0 < options.sweeps then routed.orderLayers options.sweeps
        else (routed, Except.ok ())) = (ordered, .ok ()) := by
      split
      · exact ⟨_, Prod.ext rfl (answer_orderLayers_of_sorted hsorted options.sweeps)⟩
      · exact ⟨routed, rfl⟩
    obtain ⟨ordered, hordered⟩ := hordered
    simp only [hrouted, hordered]

theorem Linked.error_assignLayers_iff (h : Linked g) (hunrouted : g.routed = false)
    (policy : CyclePolicy) :
    (∃ error, (g.assignLayers policy).2 = .error error) ↔
      policy = .strict ∧ ∃ key, g.OnCycle key := by
  have hcycle : g.levelled.unplaced ≠ [] ↔ ∃ key, g.OnCycle key := by
    rw [unplaced_levelled_ne_nil_iff h hunrouted]
    constructor
    · exact fun ⟨key, _, hkey⟩ => ⟨key, hkey⟩
    · exact fun ⟨key, hkey⟩ => ⟨key, hkey.leadsToCycle.mem_realKeys h hunrouted, hkey⟩
  rw [← hcycle, assignLayers_of_unrouted hunrouted]
  split
  · rename_i hfails
    exact iff_of_true ⟨_, rfl⟩ hfails
  · rename_i hplaced
    exact iff_of_false nofun hplaced

/-- **Failures.**  A layout of a graph that was not routed fails when its layering is strict and some
node depends on itself, directly or through others. -/
theorem Linked.error_layOut_iff (h : Linked g) (hunrouted : g.routed = false)
    (options : LayoutOptions) :
    (∃ error, (g.layOut options).2 = .error error) ↔
      options.cyclePolicy = .strict ∧ ∃ key, g.OnCycle key := by
  rw [h.answer_layOut, h.error_assignLayers_iff hunrouted]

end JobGraph.Graph
