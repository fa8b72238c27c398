import JobGraph.Proofs.Graph.Coherence
import JobGraph.Proofs.Graph.Descent
import JobGraph.Proofs.Graph.GuardedRuns
import JobGraph.Proofs.Graph.Numbering

/-!
# Walks that go round in circles

The real node behind a waypoint is found by walking along first parents.  A walk that does not end
comes back to a waypoint that it passed, `Circling`, since there are only so many nodes; and it is
such walks alone for which a matrix cannot be built.

The chains that a routing puts into a graph lead down, layer by layer, to a real node.  Edges between
waypoints that are added later may lead anywhere, and nothing keeps a waypoint from becoming its own
first parent.  So walks may circle, but not without an edge between two waypoints that did not lead
down when it was added: layers fall along all other steps of a walk, and a circle would come back to
the layer where it started.
-/

namespace JobGraph

namespace Graph

open Relation

variable {α : Type} {g g' : Graph α} {key other : NodeKey}

/-! ## Circles -/

/-- One step of a walk. -/
def Leads (g : Graph α) (key next : NodeKey) : Prop :=
  g.next? key = some next

/-- A walk from the node comes to one to which it will come back, again and again. -/
def Circling (g : Graph α) (key : NodeKey) : Prop :=
  ∃ other, ReflTransGen g.Leads key other ∧ TransGen g.Leads other other

/-- Further on, less of a walk is left. -/
theorem Walk.exists_of_reflTransGen {path : List NodeKey} (h : Walk g key path)
    (hreach : ReflTransGen g.Leads key other) :
    ∃ rest, Walk g other rest ∧ rest.length ≤ path.length := by
  induction hreach with
  | refl => exact ⟨path, h, le_refl _⟩
  | tail _ hlast ih =>
      obtain ⟨rest, hrest, hle⟩ := ih
      cases hrest with
      | stop hnext => exact absurd (hnext.symm.trans hlast) nofun
      | step hnext hrest =>
          obtain rfl := Option.some.inj (hnext.symm.trans hlast)
          exact ⟨_, hrest, (Nat.le_succ _).trans hle⟩

/-- A walk that ends does not circle. -/
theorem Walk.not_circling {path : List NodeKey} (h : Walk g key path) : ¬ Circling g key := by
  rintro ⟨other, hreach, hcircle⟩
  obtain ⟨rest, hrest, -⟩ := h.exists_of_reflTransGen hreach
  obtain ⟨next, hnext, hback⟩ := TransGen.head'_iff.1 hcircle
  cases hrest with
  | stop hstop => exact absurd (hstop.symm.trans hnext) nofun
  | step hstep hwalk =>
      -- what is left of the walk when it comes back is the whole of it
      obtain rfl := Option.some.inj (hstep.symm.trans hnext)
      obtain ⟨again, hagain, hle⟩ := hwalk.exists_of_reflTransGen hback
      rw [← (Walk.step hstep hwalk).unique hagain, List.length_cons] at hle
      omega

/-- A walk ends or circles, given the nodes it passed so far and how many are left. -/
theorem Linked.exists_walk_or_circling_from (h : Linked g) {left : Nat} {passed : List NodeKey}
    (hnodup : (key :: passed).Nodup) (hsubset : key :: passed ⊆ g.keys)
    (hpassed : ∀ other ∈ passed, TransGen g.Leads other key)
    (hleft : g.nodes.size ≤ left + passed.length) :
    (∃ path, Walk g key path) ∨ Circling g key := by
  induction left generalizing key passed with
  | zero =>
      have hle := hnodup.length_le_of_subset hsubset
      rw [List.length_cons, keys, List.length_range] at hle
      omega
  | succ left ih =>
      cases hnext : g.next? key with
      | none => exact .inl ⟨[key], .stop hnext⟩
      | some next =>
          by_cases hback : next ∈ key :: passed
          · right
            refine ⟨key, .refl, ?_⟩
            rcases List.mem_cons.1 hback with rfl | hback
            · exact .single hnext
            · exact .head hnext (hpassed next hback)
          · have hkeys : next ∈ g.keys := (mem_keys g next).2 (h.lt_of_next? hnext)
            have hgone : ∀ other ∈ key :: passed, TransGen g.Leads other next := by
              rw [List.forall_mem_cons]
              exact ⟨.single hnext, fun other hother => (hpassed other hother).tail hnext⟩
            rcases ih (List.nodup_cons.2 ⟨hback, hnodup⟩) (List.cons_subset.2 ⟨hkeys, hsubset⟩) hgone
              (by rw [List.length_cons]; omega) with ⟨path, hwalk⟩ | ⟨other, hreach, hcircle⟩
            · exact .inl ⟨key :: path, .step hnext hwalk⟩
            · exact .inr ⟨other, .head hnext hreach, hcircle⟩

theorem Linked.circling_iff (h : Linked g) (hkey : key ∈ g.keys) :
    Circling g key ↔ ¬ ∃ path, Walk g key path ∧ path.length ≤ g.nodes.size := by
  constructor
  · rintro hcircling ⟨path, hwalk, -⟩
    exact hwalk.not_circling hcircling
  · intro hnone
    apply (h.exists_walk_or_circling_from (List.nodup_singleton key)
      (List.cons_subset.2 ⟨hkey, List.nil_subset _⟩) (by simp) (Nat.le_add_right _ _)).resolve_left
    rintro ⟨path, hwalk⟩
    exact hnone ⟨path, hwalk, hwalk.length_le h ((mem_keys g key).1 hkey)⟩

/-! ## Waypoints have layers -/

theorem layerOf_modifyNode (g : Graph α) (key : NodeKey) {change : Node α → Node α}
    (hlayer : ∀ node, (change node).layer = node.layer) :
    (g.modifyNode key change).layerOf = g.layerOf := by
  funext other
  rw [layerOf_eq_elim, layerOf_eq_elim]
  exact elim_modifyNode_of_same g key Node.layer none hlayer other

/-- Every waypoint is on a layer: it is put there, and no layering comes after a routing. -/
theorem invariant_isSome_layerOf : Invariant fun g : Graph α =>
    ∀ key, g.isWaypoint key = true → (g.layerOf key).isSome where
  empty key hkey := by simp [isWaypoint, node?, empty] at hkey
  addNode g id data h key hkey := by
    obtain ⟨-, -, -, hlayer⟩ := g.reads_addNode id data
    rw [isWaypoint_addNode] at hkey
    rw [hlayer]
    exact h key hkey
  addEdge g dependent parent h key hkey := by
    have hbare := g.bareNode?_addEdge dependent parent key
    rw [isWaypoint_of_bareNode?_eq hbare] at hkey
    rw [layerOf_of_bareNode?_eq hbare]
    exact h key hkey
  removeEdge g dependent parent h key hkey := by
    have hbare := g.bareNode?_removeEdge dependent parent key
    rw [isWaypoint_of_bareNode?_eq hbare] at hkey
    rw [layerOf_of_bareNode?_eq hbare]
    exact h key hkey
  setData g key data h := by
    have hlayer : (g.setData key data).layerOf = g.layerOf :=
      layerOf_modifyNode g key fun node => by cases node.kind <;> rfl
    rwa [(reads_setData g key data).2.1, hlayer]
  setPosition g key position h := by
    have hlayer : (g.setPosition key position).layerOf = g.layerOf :=
      layerOf_modifyNode g key fun _ => rfl
    rwa [(reads_setPosition g key position).2.1, hlayer]
  assignLayers g policy hconsistent h key hkey := by
    cases hrouted : g.routed with
    | true =>
        rw [assignLayers, if_pos hrouted] at hkey ⊢
        exact h key hkey
    | false =>
        have heq := clearLayout_assignLayers hconsistent.toLinked policy
        rw [isWaypoint_of_clearLayout_eq heq,
          hconsistent.toLinked.isWaypoint_of_unrouted hrouted] at hkey
        exact absurd hkey Bool.false_ne_true
  orderLayers g sweeps h := by
    obtain ⟨layers, heq, -⟩ := g.orderLayers_fst sweeps
    rw [heq]
    exact h
  markRouted _ h := h
  withWaypoint g base source target layer h key hkey := by
    rw [layerOf_withWaypoint]
    split
    · rfl
    · rename_i hold
      rw [isWaypoint, node?_withWaypoint, if_neg hold] at hkey
      exact h key hkey

/-- A graph with a waypoint is sorted. -/
theorem Reachable.sorted_of_isWaypoint (h : Reachable g) (hkey : g.isWaypoint key = true) :
    g.sorted = true := by
  apply h.sortedIfRouted
  by_contra hunrouted
  rw [h.consistent.toLinked.isWaypoint_of_unrouted (Bool.eq_false_of_not_eq_true hunrouted)] at hkey
  exact Bool.false_ne_true hkey

/-! ## Circles need a misdrawn edge -/

/-- Layers fall along a walk from waypoint to waypoint whose steps lead down. -/
theorem exists_layerOf_lt_of_transGen
    (hlayered : ∀ key, g.isWaypoint key = true → (g.layerOf key).isSome)
    (hdown : ∀ key' next, ReflTransGen g.Leads key key' → g.Leads key' next →
      g.isWaypoint next = true → g.Descends ⟨key', next⟩)
    (hreach : TransGen g.Leads key other) (hother : g.isWaypoint other = true) :
    ∃ high low, g.layerOf key = some high ∧ g.layerOf other = some low ∧ low < high := by
  induction hreach with
  | single hstep =>
      have hkey := hlayered key (next?_eq_some_iff.1 hstep).1
      obtain ⟨high, hhigh⟩ := Option.isSome_iff_exists.1 hkey
      obtain ⟨low, hlow, hlt⟩ := hdown key _ .refl hstep hother high hhigh
      exact ⟨high, low, hhigh, hlow, hlt⟩
  | tail hreach hstep ih =>
      obtain ⟨high, middle, hhigh, hmiddle, hlt⟩ := ih (next?_eq_some_iff.1 hstep).1
      obtain ⟨low, hlow, hlt'⟩ := hdown _ _ hreach.to_reflTransGen hstep hother middle hmiddle
      exact ⟨high, low, hhigh, hlow, hlt'.trans hlt⟩

/-- On its way a walk that circles takes an edge between two waypoints that does not lead down. -/
theorem Reachable.exists_misdrawn_of_circling (h : Reachable g) {earlier : List Edge}
    (hdrawn : g.sorted = true → DrawnBut earlier g) (hcircling : Circling g key) :
    ∃ edge ∈ earlier, g.isWaypoint edge.dependent = true ∧ g.isWaypoint edge.parent = true ∧
      ReflTransGen g.Leads key edge.dependent ∧ g.Leads edge.dependent edge.parent := by
  obtain ⟨other, hreach, hcircle⟩ := hcircling
  obtain ⟨_, hfirst, -⟩ := TransGen.head'_iff.1 hcircle
  have hother : g.isWaypoint other = true := (next?_eq_some_iff.1 hfirst).1
  by_contra hnone
  have hdown : ∀ key' next, ReflTransGen g.Leads other key' → g.Leads key' next →
      g.isWaypoint next = true → g.Descends ⟨key', next⟩ := by
    intro key' next hreach' hstep hnext
    obtain ⟨hkey', hhead⟩ := next?_eq_some_iff.1 hstep
    by_contra hnot
    apply hnone
    refine ⟨⟨key', next⟩, ?_, hkey', hnext, hreach.trans hreach', hstep⟩
    apply (hdrawn (h.sorted_of_isWaypoint hother)).mem_of_not_descends _ _ hnot
    exact mem_edges_iff.2 (List.mem_of_mem_head? hhead)
  obtain ⟨high, low, hhigh, hlow, hlt⟩ :=
    exists_layerOf_lt_of_transGen (invariant_isSome_layerOf.holds h) hdown hcircle hother
  have := Option.some.inj (hhigh.symm.trans hlow)
  omega

/-! ## Matrices -/

/-- No walk from a parent of a node with a number circles. -/
def Straight (g : Graph α) (indexing : MatrixIndexing) : Prop :=
  ∀ key ∈ g.realKeys, (g.matrixPlace indexing key).isSome →
    ∀ parent ∈ g.parentsOf key, ¬ Circling g parent

/-- The walks of a matrix that could be built end. -/
theorem walksEnd_of_matrixCells? {indexing : MatrixIndexing}
    (hkey : key < g.nodes.size) (hcells : (g.matrixCells? indexing key).isSome) :
    g.WalksEnd indexing key := by
  intro hplace parent hparent
  obtain ⟨dependent, hplace⟩ := Option.isSome_iff_exists.1 hplace
  rw [matrixCells?, matrixPlace?_eq hkey, hplace, read?_parents hkey] at hcells
  obtain ⟨cells, hcells⟩ := Option.isSome_iff_exists.1 hcells
  have hcell := isSome_of_filterMapM_eq_some hcells parent hparent
  cases hfound : g.resolveFrom? (g.nodes.size + 1) parent with
  | none =>
      rw [hfound] at hcell
      exact absurd hcell Bool.false_ne_true
  | some found => exact exists_walk_of_resolveFrom? hfound

/-- A matrix can be built unless a walk circles. -/
theorem Reachable.isSome_matrix?_iff (h : Reachable g) (indexing : Option MatrixIndexing) :
    (g.matrix? indexing).isSome ↔ Straight g (indexing.getD g.defaultIndexing) := by
  have hlinked := h.consistent.toLinked
  constructor
  · intro hmatrix key hkey hplace parent hparent
    obtain ⟨matrix, hmatrix⟩ := Option.isSome_iff_exists.1 hmatrix
    rw [matrix?] at hmatrix
    obtain ⟨cells, hcells, -⟩ := Option.bind_eq_some_iff.1 hmatrix
    have hlt := hlinked.lt_of_mem_realKeys hkey
    have hends := walksEnd_of_matrixCells? hlt (isSome_of_mapM_eq_some hcells key hkey)
    obtain ⟨path, hwalk⟩ := hends hplace parent hparent
    exact hwalk.not_circling
  · intro hstraight
    have hends : ∀ key ∈ g.realKeys, g.WalksEnd (indexing.getD g.defaultIndexing) key := by
      intro key hkey hplace parent hparent
      have hkeys : parent ∈ g.keys := (mem_keys g parent).2 (hlinked.lt_of_mem_parentsOf hparent)
      have hwalk := mt (hlinked.circling_iff hkeys).2 (hstraight key hkey hplace parent hparent)
      obtain ⟨path, hwalk, -⟩ := not_not.1 hwalk
      exact ⟨path, hwalk⟩
    exact Option.isSome_of_eq_some (h.matrix?_eq indexing hends)

/-! ## Every run -/

/-- **Walks.**  Whatever is done to a graph of records, of which there may be none: a walk ends
within as many steps as there are nodes or it circles.  It circles only if it takes an edge between
two waypoints that did not lead down when it was added.  A matrix can be built exactly if no walk
from a parent of a node with a number circles. -/
theorem circling_iff_of_run (id : α → String) (parentIds : α → List String) (records : List α)
    (operations : List (Operation α)) :
    ∃ g, g = (ofRecords id parentIds records).run operations ∧
      (∀ key ∈ g.keys,
        Circling g key ↔ ¬ ∃ path, Walk g key path ∧ path.length ≤ g.nodes.size) ∧
      (∀ key, Circling g key → ∃ edge ∈ (ofRecords id parentIds records).misdrawn [] operations,
        g.isWaypoint edge.dependent = true ∧ g.isWaypoint edge.parent = true ∧
          ReflTransGen g.Leads key edge.dependent ∧ g.Leads edge.dependent edge.parent) ∧
      ∀ indexing, (g.matrix? indexing).isSome ↔ Straight g (indexing.getD g.defaultIndexing) := by
  have hstart : Reachable (ofRecords id parentIds records) := .ofRecords id parentIds records
  have hreachable := hstart.run operations
  have hunsorted : (ofRecords id parentIds records).sorted = true →
      DrawnBut [] (ofRecords id parentIds records) := by
    intro hsorted
    rw [sorted_ofRecords] at hsorted
    exact absurd hsorted Bool.false_ne_true
  refine ⟨_, rfl, ?_, ?_, hreachable.isSome_matrix?_iff⟩
  · exact fun key hkey => hreachable.consistent.toLinked.circling_iff hkey
  · intro key hcircling
    exact hreachable.exists_misdrawn_of_circling (hstart.drawnBut_run hunsorted operations) hcircling

/-- Records that form a chain with a shortcut across it. -/
def detour : Graph (String × List String) :=
  ofRecords Prod.fst Prod.snd [("a", ["b", "c"]), ("b", ["c"]), ("c", [])]

/-- The waypoint on the shortcut is made its own parent. -/
def looping : List (Operation (String × List String)) :=
  [.assignLayers .strict, .routeLongEdges, .removeEdge 3 2, .addEdge 3 3]

/-- All keys are valid, and yet the walk from a parent of `a` never ends. -/
theorem not_walk_looping :
    EndsThere detour looping ∧ 0 ∈ (detour.run looping).realKeys ∧
      3 ∈ (detour.run looping).parentsOf 0 ∧ ¬ ∃ path, Walk (detour.run looping) 3 path := by
  have hnext : (detour.run looping).next? 3 = some 3 := by decide +kernel
  refine ⟨by decide +kernel, by decide +kernel, by decide +kernel, ?_⟩
  rintro ⟨path, hwalk⟩
  exact hwalk.not_circling ⟨3, .refl, .single hnext⟩

example : detour.misdrawn [] looping = [⟨3, 3⟩] := by decide +kernel

end Graph

end JobGraph
