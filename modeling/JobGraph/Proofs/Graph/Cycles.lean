import JobGraph.Graph.Cycles
import JobGraph.Proofs.Graph.Depth
import Mathlib.Data.List.Perm.Basic
import Mathlib.Data.List.Sort

/-!
# Nodes on cycles

`ancestors` expands a set of nodes round by round.  A round that adds nothing is the last one that
matters, and every other round adds a node of the given set; so after as many rounds as the set has
nodes all of them are found: `mem_ancestors_iff`.

A cycle never leaves the set of the nodes that lead to a cycle.  Hence it does not matter whether
cycles are searched among all nodes or inside that set: `onCycle_iff_of_leadsToCycle`.

Cycles can also be told from strongly connected components.  A component stands for a cycle when it
has several nodes, or one that depends on itself: `flatten_filter_isCyclic_perm`.
-/

namespace JobGraph.Graph

open Relation

variable {α : Type} {g : Graph α} {within seen : List NodeKey} {key other : NodeKey}

/-- A node lies on a cycle when it depends on itself, directly or through other nodes. -/
def OnCycle (g : Graph α) (key : NodeKey) : Prop :=
  TransGen g.DependsOn key key

/-- A node depends on a parent that belongs to a set. -/
def DependsWithin (g : Graph α) (within : List NodeKey) (dependent parent : NodeKey) : Prop :=
  g.DependsOn dependent parent ∧ parent ∈ within

/-- The nodes seen have all their parents inside the set among them. -/
def ClosedWithin (g : Graph α) (within seen : List NodeKey) : Prop :=
  ∀ key ∈ seen, ∀ parent, g.DependsWithin within key parent → parent ∈ seen

/-! ## Rounds -/

theorem mem_expand_iff :
    other ∈ g.expand within seen ↔ other ∈ seen ∨ ∃ key ∈ seen, g.DependsWithin within key other := by
  rw [expand, List.mem_append, List.mem_eraseDups, List.mem_filter, List.mem_flatMap]
  constructor
  · rintro (hseen | ⟨⟨key, hkey, hparent⟩, hfilter⟩)
    · exact .inl hseen
    · rw [Bool.and_eq_true, List.contains_iff_mem] at hfilter
      exact .inr ⟨key, hkey, hparent, hfilter.1⟩
  · rintro (hseen | ⟨key, hkey, hparent, hwithin⟩)
    · exact .inl hseen
    · by_cases hseen : other ∈ seen
      · exact .inl hseen
      · exact .inr ⟨⟨key, hkey, hparent⟩, by simp [hwithin, hseen]⟩

theorem expand_of_closedWithin (h : g.ClosedWithin within seen) : g.expand within seen = seen := by
  have hnone : (seen.flatMap g.parentsOf).filter
      (fun key => within.contains key && !seen.contains key) = [] := by
    rw [List.filter_eq_nil_iff]
    intro parent hparent hfilter
    obtain ⟨key, hkey, hdepends⟩ := List.mem_flatMap.1 hparent
    rw [Bool.and_eq_true, List.contains_iff_mem] at hfilter
    have hseen := h key hkey parent ⟨hdepends, hfilter.1⟩
    simp [hseen] at hfilter
  rw [expand, hnone, List.eraseDups_nil, List.append_nil]

theorem expandTimes_of_closedWithin (h : g.ClosedWithin within seen) (times : Nat) :
    g.expandTimes within times seen = seen := by
  induction times with
  | zero => rfl
  | succ times ih => rw [expandTimes, expand_of_closedWithin h, ih]

/-- A round that is not the last one adds a node. -/
theorem card_lt_card_expand (h : ¬ g.ClosedWithin within seen) :
    seen.toFinset.card < (g.expand within seen).toFinset.card := by
  unfold ClosedWithin at h
  push Not at h
  obtain ⟨key, hkey, parent, hdepends, hnew⟩ := h
  apply Finset.card_lt_card
  rw [Finset.ssubset_iff_of_subset]
  · exact ⟨parent, by simpa using mem_expand_iff.2 (.inr ⟨key, hkey, hdepends⟩), by simpa using hnew⟩
  · intro node hnode
    rw [List.mem_toFinset] at hnode ⊢
    exact mem_expand_iff.2 (.inl hnode)

theorem expand_subset (h : seen ⊆ within) : g.expand within seen ⊆ within := by
  intro node hnode
  rcases mem_expand_iff.1 hnode with hseen | ⟨key, -, -, hwithin⟩
  · exact h hseen
  · exact hwithin

/-- With a round for every node of the set that is not seen yet, nothing is left to add. -/
theorem closedWithin_expandTimes {times : Nat} (hsub : seen ⊆ within)
    (htimes : within.length < times + seen.toFinset.card) :
    g.ClosedWithin within (g.expandTimes within times seen) := by
  induction times generalizing seen with
  | zero =>
      have hcard : seen.toFinset.card ≤ within.toFinset.card :=
        Finset.card_le_card fun node hnode => by
          rw [List.mem_toFinset] at hnode ⊢
          exact hsub hnode
      have := within.toFinset_card_le
      omega
  | succ times ih =>
      by_cases hclosed : g.ClosedWithin within seen
      · rwa [expandTimes_of_closedWithin hclosed]
      · have hlt := card_lt_card_expand hclosed
        exact ih (expand_subset hsub) (by omega)

theorem subset_expandTimes (times : Nat) : seen ⊆ g.expandTimes within times seen := by
  induction times generalizing seen with
  | zero => exact fun _ hnode => hnode
  | succ times ih => exact fun node hnode => ih (mem_expand_iff.2 (.inl hnode))

/-- What is found can be reached from what was seen. -/
theorem exists_reach_of_mem_expandTimes {times : Nat} (h : other ∈ g.expandTimes within times seen) :
    ∃ key ∈ seen, ReflTransGen (g.DependsWithin within) key other := by
  induction times generalizing seen with
  | zero => exact ⟨other, h, .refl⟩
  | succ times ih =>
      obtain ⟨key, hkey, hreach⟩ := ih h
      rcases mem_expand_iff.1 hkey with hseen | ⟨first, hfirst, hdepends⟩
      · exact ⟨key, hseen, hreach⟩
      · exact ⟨first, hfirst, .head hdepends hreach⟩

/-! ## Ancestors and cycles -/

/-- The search finds the nodes that can be reached inside the set. -/
theorem mem_ancestors_iff :
    other ∈ g.ancestors within key ↔ TransGen (g.DependsWithin within) key other := by
  have hstart : ∀ parent, parent ∈ ((g.parentsOf key).filter fun parent =>
      within.contains parent).eraseDups ↔ g.DependsWithin within key parent := by
    intro parent
    rw [List.mem_eraseDups, List.mem_filter, List.contains_iff_mem]
    rfl
  constructor
  · intro h
    obtain ⟨parent, hparent, hreach⟩ := exists_reach_of_mem_expandTimes h
    exact TransGen.head' ((hstart parent).1 hparent) hreach
  · intro h
    obtain ⟨parent, hparent, hreach⟩ := TransGen.head'_iff.1 h
    have hclosed : g.ClosedWithin within (g.ancestors within key) := by
      refine closedWithin_expandTimes (fun node hnode => ((hstart node).1 hnode).2) ?_
      have : parent ∈ (((g.parentsOf key).filter fun parent =>
          within.contains parent).eraseDups).toFinset :=
        List.mem_toFinset.2 ((hstart parent).2 hparent)
      have := Finset.card_pos.2 ⟨parent, this⟩
      omega
    induction hreach with
    | refl => exact subset_expandTimes _ ((hstart parent).2 hparent)
    | tail _ hdepends ih =>
        exact hclosed _ (ih (TransGen.head' hparent ‹_›)) _ hdepends

theorem onCycle_eq_true_iff :
    g.onCycle within key = true ↔ TransGen (g.DependsWithin within) key key := by
  rw [onCycle, List.contains_iff_mem, mem_ancestors_iff]

theorem OnCycle.leadsToCycle (h : g.OnCycle key) : g.LeadsToCycle key :=
  ⟨key, .refl, h⟩

/-- What leads to a node that leads to a cycle does so as well. -/
theorem LeadsToCycle.of_reach (h : g.LeadsToCycle other)
    (hreach : ReflTransGen g.DependsOn key other) : g.LeadsToCycle key := by
  obtain ⟨node, hnode, hcycle⟩ := h
  exact ⟨node, hreach.trans hnode, hcycle⟩

/-- A cycle stays among the nodes that lead to a cycle. -/
theorem onCycle_iff_of_leadsToCycle (hwithin : ∀ node, g.LeadsToCycle node → node ∈ within) :
    g.onCycle within key = true ↔ g.OnCycle key := by
  rw [onCycle_eq_true_iff]
  have hmono : g.DependsWithin within ≤ g.DependsOn := fun _ _ hdepends => hdepends.1
  constructor
  · exact TransGen.mono hmono key key
  · intro h
    -- every node on the way leads back to `key`, which lies on the cycle
    have hway : ∀ node, TransGen g.DependsOn node key →
        TransGen (g.DependsWithin within) node key := by
      intro node hnode
      induction hnode using TransGen.head_induction_on with
      | single hdepends => exact .single ⟨hdepends, hwithin key h.leadsToCycle⟩
      | head hdepends hrest ih =>
          exact .head ⟨hdepends, hwithin _ (h.leadsToCycle.of_reach hrest.to_reflTransGen)⟩ ih
    exact hway key h

/-! ## Components -/

/-- Lists that part a set into its strongly connected components: two nodes stand in one list when
each leads to the other inside the set. -/
structure IsComponents (g : Graph α) (within : List NodeKey) (components : List (List NodeKey)) :
    Prop where
  perm : components.flatten.Perm within
  mem_iff : ∀ component ∈ components, ∀ first ∈ component, ∀ second ∈ within,
    second ∈ component ↔ ReflTransGen (g.DependsWithin within) first second ∧
      ReflTransGen (g.DependsWithin within) second first

/-- A component stands for a cycle when it has several nodes, or one that depends on itself. -/
def isCyclic (g : Graph α) (component : List NodeKey) : Bool :=
  1 < component.length || component.head?.any fun key => (g.parentsOf key).contains key

namespace IsComponents

variable {components : List (List NodeKey)} {component : List NodeKey}

theorem nodup (h : g.IsComponents within components) (hnodup : within.Nodup)
    (hcomponent : component ∈ components) : component.Nodup :=
  (List.nodup_flatten.1 (h.perm.nodup_iff.2 hnodup)).1 component hcomponent

theorem mem_within (h : g.IsComponents within components) (hcomponent : component ∈ components)
    (hkey : key ∈ component) : key ∈ within :=
  h.perm.mem_iff.1 (List.mem_flatten.2 ⟨component, hcomponent, hkey⟩)

/-- The nodes of a component are on a cycle together or not at all. -/
theorem isCyclic_iff (h : g.IsComponents within components) (hnodup : within.Nodup)
    (hcomponent : component ∈ components) (hkey : key ∈ component) :
    g.isCyclic component = true ↔ g.onCycle within key = true := by
  have hwithin := h.mem_within hcomponent hkey
  rw [isCyclic, Bool.or_eq_true, decide_eq_true_eq, onCycle_eq_true_iff]
  constructor
  · intro hcyclic
    by_cases hmore : 1 < component.length
    · -- another node of the component leads to this one and back
      obtain ⟨second, hsecond, hne⟩ : ∃ second ∈ component, second ≠ key := by
        by_contra! hall
        have hsubset : component ⊆ [key] := fun node hnode =>
          List.mem_singleton.2 (hall node hnode)
        have hone := (h.nodup hnodup hcomponent).length_le_of_subset hsubset
        rw [List.length_singleton] at hone
        omega
      obtain ⟨hto, hback⟩ := (h.mem_iff component hcomponent key hkey second
        (h.mem_within hcomponent hsecond)).1 hsecond
      rcases reflTransGen_iff_eq_or_transGen.1 hto with heq | hto
      · exact absurd heq hne
      · exact hto.trans_left hback
    · obtain ⟨first, rfl⟩ : ∃ first, component = [first] := by
        have := List.length_pos_of_mem hkey
        exact List.length_eq_one_iff.1 (by omega)
      obtain rfl : key = first := List.mem_singleton.1 hkey
      have hloop : key ∈ g.parentsOf key := by simpa using hcyclic
      exact .single ⟨hloop, hwithin⟩
  · intro hcycle
    obtain ⟨parent, hdepends, hback⟩ := TransGen.head'_iff.1 hcycle
    by_cases hsame : parent = key
    · subst hsame
      by_cases hmore : 1 < component.length
      · exact .inl hmore
      · obtain ⟨first, rfl⟩ : ∃ first, component = [first] := by
          have := List.length_pos_of_mem hkey
          exact List.length_eq_one_iff.1 (by omega)
        obtain rfl : parent = first := List.mem_singleton.1 hkey
        have hloop : parent ∈ g.parentsOf parent := hdepends.1
        exact .inr (by simpa using hloop)
    · -- the parent stands in the same component, which hence has two nodes
      have hparent : parent ∈ component := (h.mem_iff component hcomponent key hkey parent
        hdepends.2).2 ⟨.single hdepends, hback⟩
      have htwo : [parent, key].length ≤ component.length := by
        refine List.Nodup.length_le_of_subset (by simp [hsame]) fun node hnode => ?_
        rcases List.mem_pair.1 hnode with rfl | rfl
        · exact hparent
        · exact hkey
      exact .inl htwo

/-- The components that stand for a cycle hold the nodes on cycles, each once. -/
theorem flatten_filter_isCyclic_perm (h : g.IsComponents within components)
    (hnodup : within.Nodup) :
    (components.filter g.isCyclic).flatten.Perm (within.filter (g.onCycle within)) := by
  have hflatten : (components.filter g.isCyclic).flatten.Nodup :=
    (h.perm.nodup_iff.2 hnodup).sublist List.filter_sublist.flatten
  refine (List.perm_ext_iff_of_nodup hflatten (hnodup.filter _)).2 fun node => ?_
  rw [List.mem_flatten, List.mem_filter]
  constructor
  · rintro ⟨component, hmem, hnode⟩
    obtain ⟨hcomponent, hcyclic⟩ := List.mem_filter.1 hmem
    exact ⟨h.mem_within hcomponent hnode,
      (h.isCyclic_iff hnodup hcomponent hnode).1 hcyclic⟩
  · rintro ⟨hwithin, hcycle⟩
    obtain ⟨component, hcomponent, hnode⟩ := List.mem_flatten.1 (h.perm.mem_iff.2 hwithin)
    exact ⟨component, List.mem_filter.2 ⟨hcomponent,
      (h.isCyclic_iff hnodup hcomponent hnode).2 hcycle⟩, hnode⟩

end IsComponents

end JobGraph.Graph
