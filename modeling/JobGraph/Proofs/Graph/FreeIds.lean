import JobGraph.Proofs.Graph.Records
import JobGraph.Proofs.Graph.RoutedEdges

/-!
# Ids of waypoints

A waypoint gets an id that no node has.  If the id it is named for is taken, it gets a number; of the
numbers that are tried one is free, since there are more of them than there are entries in the index.
This needs that an entry comes with a node, `IdsBounded`.

So an id that names a node keeps naming it when the graph is routed, however odd the ids of its nodes
are: `NamesKept`.
-/

namespace JobGraph

theorem IdIndex.mem_entries_of_contains {index : IdIndex} {id : String}
    (h : index.contains id = true) : id ∈ index.entries.map Prod.fst := by
  obtain ⟨key, hkey⟩ := Option.isSome_iff_exists.1 h
  obtain ⟨before, after, hentries, -⟩ := List.lookup_eq_some_iff.1 hkey
  rw [hentries]
  simp

namespace Graph

variable {α : Type} {g g' g'' : Graph α}

/-! ## Free ids -/

/-- The index of ids has no more entries than the graph has nodes. -/
def IdsBounded (g : Graph α) : Prop :=
  g.idIndex.entries.length ≤ g.nodes.size

theorem numberedId_injective (base : String) : Function.Injective (numberedId base) := by
  intro i j h
  rw [numberedId, numberedId, String.append_right_inj] at h
  have hdigits := congrArg (fun text => Nat.ofDigitChars 10 text.toList 0) h
  simpa [Nat.toString_eq_ofList_toDigits] using hdigits

/-- Of one more candidates than there are nodes, one is free. -/
theorem exists_free_numberedId (h : IdsBounded g) (base : String) :
    ∃ n < g.nodes.size + 1, g.idIndex.contains (numberedId base (n + 2)) = false := by
  by_contra hall
  push Not at hall
  have hnodup : ((List.range (g.nodes.size + 1)).map fun n => numberedId base (n + 2)).Nodup :=
    List.nodup_range.map fun i j hij => Nat.add_right_cancel (numberedId_injective base hij)
  have hsubset : ((List.range (g.nodes.size + 1)).map fun n => numberedId base (n + 2)) ⊆
      g.idIndex.entries.map Prod.fst := by
    intro id hid
    obtain ⟨n, hn, rfl⟩ := List.mem_map.1 hid
    exact IdIndex.mem_entries_of_contains (by simpa using hall n (List.mem_range.1 hn))
  have hle := hnodup.length_le_of_subset hsubset
  rw [List.length_map, List.length_range, List.length_map] at hle
  exact absurd hle (by unfold IdsBounded at h; omega)

/-- The id of a new waypoint is free. -/
theorem contains_freeId (h : IdsBounded g) (base : String) :
    g.idIndex.contains (g.freeId base) = false := by
  unfold freeId
  split
  · dsimp only
    obtain ⟨n, hn, hfree⟩ := exists_free_numberedId h base
    cases hfind : ((List.range (g.nodes.size + 1)).map fun n => numberedId base (n + 2)).find?
        fun id => !g.idIndex.contains id with
    | some id => simpa using List.find?_some hfind
    | none =>
        have := List.find?_eq_none.1 hfind _ (List.mem_map.2 ⟨n, List.mem_range.2 hn, rfl⟩)
        simp [hfree] at this
  · simp_all

/-! ## Ids that name a node -/

/-- Ids that name a node keep naming it, as long as there are no more ids than nodes. -/
structure NamesKept (g g' : Graph α) : Prop where
  idsBounded : IdsBounded g → IdsBounded g'
  find?_eq : IdsBounded g → ∀ id, (g.find? id).isSome → g'.find? id = g.find? id

namespace NamesKept

theorem refl (g : Graph α) : NamesKept g g :=
  ⟨id, fun _ _ _ => rfl⟩

theorem trans (h : NamesKept g g') (h' : NamesKept g' g'') : NamesKept g g'' where
  idsBounded hbounded := h'.idsBounded (h.idsBounded hbounded)
  find?_eq hbounded id hid := by
    have hfirst := h.find?_eq hbounded id hid
    rw [h'.find?_eq (h.idsBounded hbounded) id (by rwa [hfirst]), hfirst]

theorem of_eq (hindex : g'.idIndex = g.idIndex) (hsize : g'.nodes.size = g.nodes.size) :
    NamesKept g g' := by
  refine ⟨fun h => ?_, fun _ id _ => ?_⟩
  · rwa [IdsBounded, hindex, hsize]
  · rw [find?, hindex, find?]

end NamesKept

theorem idIndex_removeEdge (g : Graph α) (dependent parent : NodeKey) :
    (g.removeEdge dependent parent).idIndex = g.idIndex := by
  unfold removeEdge
  split <;> rfl

theorem namesKept_addEdge (g : Graph α) (dependent parent : NodeKey) :
    NamesKept g (g.addEdge dependent parent) :=
  .of_eq (g.idIndex_addEdge dependent parent) (g.nodes_size_addEdge dependent parent)

theorem namesKept_removeEdge (g : Graph α) (dependent parent : NodeKey) :
    NamesKept g (g.removeEdge dependent parent) :=
  .of_eq (g.idIndex_removeEdge dependent parent) (g.nodes_size_removeEdge dependent parent)

/-- A waypoint with a free id takes none over. -/
theorem namesKept_withWaypoint (g : Graph α) (base : String) (source target : NodeKey)
    (layer : Nat) : NamesKept g (g.withWaypoint (g.freeId base) source target layer) where
  idsBounded h := by
    rw [IdsBounded, nodes_size_withWaypoint]
    exact Nat.succ_le_succ h
  find?_eq h id hid := by
    show (g.idIndex.insert (g.freeId base) g.nextKey).get? id = g.idIndex.get? id
    rw [IdIndex.get?_insert, if_neg]
    rintro rfl
    have hfree := contains_freeId h base
    rw [IdIndex.contains] at hfree
    exact absurd hid (by simp [find?, hfree])

/-- **Ids.**  After a routing, every id that named a node names it still. -/
theorem namesKept_routeLongEdges (g : Graph α) : NamesKept g g.routeLongEdges.1 := by
  refine routeLongEdges_induction (P := NamesKept g) ?_ ?_ ?_ ?_ (.refl g)
  · exact fun _ hnext => hnext.trans (.of_eq rfl rfl)
  · exact fun next dependent parent hnext => hnext.trans (namesKept_addEdge next dependent parent)
  · exact fun next dependent parent hnext =>
      hnext.trans (namesKept_removeEdge next dependent parent)
  · exact fun next base source target layer hnext =>
      hnext.trans (namesKept_withWaypoint next base source target layer)

end Graph

end JobGraph
