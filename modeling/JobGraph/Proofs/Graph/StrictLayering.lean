import JobGraph.Proofs.Graph.Cycles
import JobGraph.Proofs.Graph.Layouts

/-!
# Strict layerings

A strict layering fails when some node lies on a cycle, and it names the nodes on cycles and no
others.  Those that merely depend on a cycle are left over as well, but no cycle passes through
them.  Conversely whatever is left over leads to a cycle, so that there is always a node to name.

The failure leaves the graph without a layout; when there is none, strict and lenient layerings are
the same.
-/

namespace JobGraph.Graph

open Relation

variable {α : Type} {g g' : Graph α}

/-! ## What is left over -/

theorem dependsOn_of_parentsOf_eq (h : g'.parentsOf = g.parentsOf) : g'.DependsOn = g.DependsOn := by
  unfold DependsOn
  rw [h]

theorem nodup_realKeys (h : Linked g) : g.realKeys.Nodup := by
  rw [h.realKeys_eq]
  exact g.nodup_keys.filter _

/-- Real nodes are listed in the order of creation. -/
theorem pairwise_le_realKeys (h : Linked g) : g.realKeys.Pairwise (· ≤ ·) := by
  rw [h.realKeys_eq]
  exact (List.pairwise_lt_range.imp Nat.le_of_lt).filter _

/-- Whatever leads to a cycle has a parent, so that it is a node. -/
theorem LeadsToCycle.mem_realKeys (h : Linked g) (hunrouted : g.routed = false) {key : NodeKey}
    (hleads : g.LeadsToCycle key) : key ∈ g.realKeys := by
  obtain ⟨node, hreach, hcycle⟩ := hleads
  obtain ⟨parent, hparent, -⟩ := TransGen.head'_iff.1 (TransGen.trans_right hreach hcycle)
  exact (h.mem_realKeys_iff hunrouted).2 (g.lt_of_mem_parentsOf hparent)

section Levelled

variable (hlinked : Linked g) (hunrouted : g.routed = false)

include hlinked hunrouted

/-- Left over are the nodes that lead to a cycle. -/
theorem mem_unplaced_levelled_iff {key : NodeKey} :
    key ∈ g.levelled.unplaced ↔ key ∈ g.realKeys ∧ g.LeadsToCycle key := by
  have hreal : g.levelled.realKeys = g.realKeys := rfl
  have hranked : (g.levelled.rankOf key).isSome ↔ key ∈ g.levelled.ranking := by
    simp only [Option.isSome_iff_exists, (placed_levelled hlinked hunrouted).rankOf_iff,
      List.mem_iff_getElem?]
  rw [unplaced, List.mem_filter, hreal]
  refine and_congr_right fun hkey => ?_
  rw [Option.isNone_iff_eq_none, ← Option.not_isSome_iff_eq_none, hranked,
    mem_ranking_levelled_iff hlinked hunrouted, exists_hasDepth_iff]
  have hsize := (hlinked.mem_realKeys_iff hunrouted).1 hkey
  constructor
  · intro hleft
    by_contra hno
    exact hleft ⟨hsize, hno⟩
  · rintro hleads ⟨-, hno⟩
    exact hno hleads

/-- The nodes on cycles, in the order of creation. -/
theorem mem_cycleMembers_iff {key : NodeKey} :
    key ∈ g.levelled.unplaced.filter (g.levelled.onCycle g.levelled.unplaced) ↔ g.OnCycle key := by
  have hparents := parentsOf_of_clearLayout_eq g.clearLayout_levelled
  have hdepends := dependsOn_of_parentsOf_eq hparents
  have hleads : ∀ node, g.levelled.LeadsToCycle node ↔ g.LeadsToCycle node := by
    intro node
    unfold LeadsToCycle
    rw [hdepends]
  have hall : ∀ node, g.levelled.LeadsToCycle node → node ∈ g.levelled.unplaced := by
    intro node hnode
    have hnode := (hleads node).1 hnode
    exact (mem_unplaced_levelled_iff hlinked hunrouted).2
      ⟨hnode.mem_realKeys hlinked hunrouted, hnode⟩
  rw [List.mem_filter, onCycle_iff_of_leadsToCycle hall, OnCycle, hdepends]
  refine and_iff_right_of_imp fun hcycle => hall key ((hleads key).2 ?_)
  exact OnCycle.leadsToCycle hcycle

/-- Something is left over exactly when there is a cycle. -/
theorem unplaced_levelled_ne_nil_iff :
    g.levelled.unplaced ≠ [] ↔ ∃ key ∈ g.realKeys, g.OnCycle key := by
  constructor
  · intro hne
    obtain ⟨key, hkey⟩ := List.exists_mem_of_ne_nil _ hne
    obtain ⟨node, -, hcycle⟩ := ((mem_unplaced_levelled_iff hlinked hunrouted).1 hkey).2
    exact ⟨node, (OnCycle.leadsToCycle hcycle).mem_realKeys hlinked hunrouted, hcycle⟩
  · rintro ⟨key, hkey, hcycle⟩
    exact List.ne_nil_of_mem ((mem_unplaced_levelled_iff hlinked hunrouted).2
      ⟨hkey, OnCycle.leadsToCycle hcycle⟩)

end Levelled

/-! ## The failure -/

/-- `g'` is `g` without a layout, and the members are the nodes of `g` on cycles. -/
structure CyclesReported (g g' : Graph α) (members : List NodeKey) : Prop where
  /-- The members stand in the order of creation. -/
  sublist_realKeys : members.Sublist g.realKeys
  nodup : members.Nodup
  mem_iff : ∀ key, key ∈ members ↔ g.OnCycle key
  ne_nil : members ≠ []
  /-- The members are those of the strongly connected components that stand for a cycle, among the
  nodes that lead to one. -/
  components_eq : ∀ leftOver components, leftOver.Sublist g.realKeys →
    (∀ key, key ∈ leftOver ↔ key ∈ g.realKeys ∧ g.LeadsToCycle key) →
    g.IsComponents leftOver components → (components.filter g.isCyclic).flatten.mergeSort = members
  node?_eq : ∀ key, g'.node? key =
    (g.node? key).map fun node => { node with rank := none, layer := none }
  realKeys_eq : g'.realKeys = g.realKeys
  waypointKeys_eq : g'.waypointKeys = g.waypointKeys
  idIndex_eq : g'.idIndex = g.idIndex
  layers_eq : g'.layers = []
  ranking_eq : g'.ranking = []
  not_sorted : g'.sorted = false

/-- A list of nodes on cycles in the order of creation is what the components give. -/
theorem mergeSort_flatten_filter_isCyclic {leftOver members : List NodeKey}
    {components : List (List NodeKey)} (hlinked : Linked g)
    (hleftOver : leftOver.Sublist g.realKeys)
    (hleads : ∀ key, g.LeadsToCycle key → key ∈ leftOver)
    (hcomponents : g.IsComponents leftOver components) (hmembers : members.Sublist g.realKeys)
    (hmem : ∀ key, key ∈ members ↔ g.OnCycle key) :
    (components.filter g.isCyclic).flatten.mergeSort = members := by
  have hnodup := nodup_realKeys hlinked
  have hperm : (components.filter g.isCyclic).flatten.Perm members := by
    refine (hcomponents.flatten_filter_isCyclic_perm (hnodup.sublist hleftOver)).trans ?_
    refine (List.perm_ext_iff_of_nodup ((hnodup.sublist hleftOver).filter _)
      (hnodup.sublist hmembers)).2 fun key => ?_
    rw [List.mem_filter, onCycle_iff_of_leadsToCycle hleads, hmem]
    exact and_iff_right_of_imp fun hcycle => hleads key hcycle.leadsToCycle
  have hsorted : (components.filter g.isCyclic).flatten.mergeSort.Pairwise (· ≤ ·) := by
    have htrans : ∀ first second third : NodeKey, decide (first ≤ second) = true →
        decide (second ≤ third) = true → decide (first ≤ third) = true := by
      simpa using fun _ _ _ => Nat.le_trans
    have htotal : ∀ first second : NodeKey,
        (decide (first ≤ second) || decide (second ≤ first)) = true := by
      simpa using Nat.le_total
    simpa using List.pairwise_mergeSort htrans htotal (components.filter g.isCyclic).flatten
  exact ((List.mergeSort_perm _ _).trans hperm).eq_of_pairwise
    (fun _ _ _ _ hle hge => Nat.le_antisymm hle hge) hsorted
    ((pairwise_le_realKeys hlinked).sublist hmembers)

theorem cyclesReported_of_unplaced_ne_nil (hlinked : Linked g) (hunrouted : g.routed = false)
    (hne : g.levelled.unplaced ≠ []) :
    ∃ members, g.levelled.cycleIds g.levelled.unplaced = members.map g.idOf ∧
      CyclesReported g g.clearLayout members := by
  have hnodup := nodup_realKeys hlinked
  have hmem : ∀ key, key ∈ g.levelled.unplaced.filter
      (g.levelled.onCycle g.levelled.unplaced) ↔ g.OnCycle key :=
    fun key => mem_cycleMembers_iff hlinked hunrouted
  have hsublist : (g.levelled.unplaced.filter
      (g.levelled.onCycle g.levelled.unplaced)).Sublist g.realKeys :=
    List.filter_sublist.trans List.filter_sublist
  obtain ⟨key, -, hcycle⟩ := (unplaced_levelled_ne_nil_iff hlinked hunrouted).1 hne
  have hsome := List.ne_nil_of_mem ((hmem key).2 hcycle)
  refine ⟨_, ?_, hsublist, hnodup.sublist hsublist, hmem, hsome, ?_, node?_clearLayout g, rfl, rfl,
    rfl, rfl, rfl, rfl⟩
  · rw [cycleIds, idOf_of_clearLayout_eq g.clearLayout_levelled]
    rw [if_neg (by simpa using hsome)]
  · intro leftOver components hleftOver hleads hcomponents
    refine mergeSort_flatten_filter_isCyclic hlinked hleftOver (fun other hother => ?_) hcomponents
      hsublist hmem
    exact (hleads other).2 ⟨hother.mem_realKeys hlinked hunrouted, hother⟩

/-! ## Strict and lenient layerings -/

/-- **Cycles.**  On a graph that was not routed, a strict layering fails exactly when there is a
cycle, and it names the nodes on cycles.  When it does not fail, it does what a lenient one does. -/
theorem Reachable.strict_assignLayers (h : Reachable g) (hunrouted : g.routed = false) :
    ((∃ error, (g.assignLayers .strict).2 = .error error) ↔ ∃ key ∈ g.realKeys, g.OnCycle key) ∧
      (∀ error, (g.assignLayers .strict).2 = .error error → ∃ members,
        error = .cycle (members.map g.idOf) ∧
          CyclesReported g (g.assignLayers .strict).1 members) ∧
      ∀ report, (g.assignLayers .strict).2 = .ok report →
        g.assignLayers .strict = g.assignLayers .lenient := by
  have hlinked := h.consistent.toLinked
  have hiff := unplaced_levelled_ne_nil_iff hlinked hunrouted
  rw [← hiff, assignLayers_of_unrouted hunrouted, assignLayers_of_unrouted hunrouted]
  by_cases hne : g.levelled.unplaced = []
  · -- nothing is left over, and the policy does not matter
    rw [if_neg (by simp [hne]), if_neg (by simp)]
    refine ⟨iff_of_false ?_ (not_not.2 hne), ?_, fun _ _ => rfl⟩
    · rintro ⟨error, herror⟩
      exact nomatch herror
    · intro error herror
      exact nomatch herror
  · rw [if_pos ⟨rfl, hne⟩]
    refine ⟨iff_of_true ⟨_, rfl⟩ hne, ?_, fun report hreport => nomatch hreport⟩
    intro error herror
    obtain ⟨members, hids, hreported⟩ := cyclesReported_of_unplaced_ne_nil hlinked hunrouted hne
    exact ⟨members, by rw [← Except.error.inj herror, hids], hreported⟩

/-- A cycle of two nodes, a node that depends on itself, and two nodes that depend on them. -/
def tangle : Graph Unit :=
  empty.run [.addNode "a" (), .addNode "b" (), .addNode "c" (), .addNode "d" (), .addNode "e" (),
    .addEdge 0 1, .addEdge 1 0, .addEdge 2 1, .addEdge 3 3, .addEdge 4 2, .addEdge 4 3]

theorem reachable_tangle : Reachable tangle :=
  Reachable.empty.run _

theorem strict_tangle :
    ∃ members, (tangle.assignLayers .strict).2 = .error (.cycle (members.map tangle.idOf)) ∧
      CyclesReported tangle (tangle.assignLayers .strict).1 members := by
  obtain ⟨error, herror⟩ : ∃ error, (tangle.assignLayers .strict).2 = .error error := by
    refine (reachable_tangle.strict_assignLayers rfl).1.2 ⟨3, by decide +kernel, .single ?_⟩
    show 3 ∈ tangle.parentsOf 3
    decide +kernel
  obtain ⟨members, rfl, hreported⟩ := (reachable_tangle.strict_assignLayers rfl).2.1 error herror
  exact ⟨members, herror, hreported⟩

example : (tangle.assignLayers .strict).2 = .error (.cycle ["a", "b", "d"]) := by decide +kernel

/-- A single node.  There is no edge to split, but the graph counts as routed. -/
def routedLoner : Graph Unit :=
  empty.run [.addNode "a" (), .assignLayers .lenient, .routeLongEdges]

/-- A strict layering may fail without a cycle, on a graph that has no waypoints but was routed. -/
theorem strict_routedLoner :
    Reachable routedLoner ∧ routedLoner.waypointKeys = [] ∧
      (routedLoner.assignLayers .strict).2 = .error .resort ∧
      ¬ ((∃ error, (routedLoner.assignLayers .strict).2 = .error error) ↔
        ∃ key ∈ routedLoner.realKeys, routedLoner.OnCycle key) := by
  have hfailure : (routedLoner.assignLayers .strict).2 = .error .resort := by decide +kernel
  have hkeys : routedLoner.realKeys = [0] := by decide +kernel
  have hparents : routedLoner.parentsOf 0 = [] := by decide +kernel
  refine ⟨Reachable.empty.run _, by decide +kernel, hfailure, fun hiff => ?_⟩
  obtain ⟨key, hkey, hcycle⟩ := hiff.1 ⟨_, hfailure⟩
  rw [hkeys, List.mem_singleton] at hkey
  obtain ⟨parent, hparent, -⟩ := TransGen.head'_iff.1 hcycle
  rw [hkey, DependsOn, hparents] at hparent
  exact absurd hparent List.not_mem_nil

end JobGraph.Graph
