import JobGraph.Graph.Layering
import JobGraph.Proofs.Graph.Consistency
import JobGraph.Proofs.Graph.Depth
import Mathlib.Data.List.Dedup

/-!
# Frontiers are the levels of depth

The frontiers of a linked graph without waypoints are the nodes of depth zero, one, two and so on,
until no node is left that has a depth: `mem_frontiers_iff`.

The loop carries `AtDepth`: what is placed are the nodes of smaller depth, the frontier is the nodes
of this depth, and what is pending of a node are its edges to nodes that are not placed.  One round
meets every child once for each of its edges to the frontier, because edges are kept at both ends
equally often; so exactly those nodes are released whose parents are placed by now and of which one
was placed just now.

Every round places a node, so as many rounds as there are nodes are enough.
-/

namespace JobGraph.Graph

variable {α : Type} {g : Graph α}

/-! ## One round of releases -/

/-- Every occurrence in the stream takes one edge off what is pending. -/
theorem pending_foldl_release (stream : List NodeKey) (pending : Pending)
    (released : List NodeKey) (key : NodeKey) :
    (stream.foldl release (pending, released)).1[key]? =
      pending[key]?.map (· - stream.count key) := by
  induction stream generalizing pending released with
  | nil => simp
  | cons child rest ih =>
      rw [List.foldl_cons, release, ih, Array.getElem?_modify, List.count_cons]
      by_cases hchild : child = key
      · cases pending[key]? <;> simp [hchild, Nat.sub_sub, Nat.add_comm]
      · simp [hchild]

/-- Of every child of a stream as many edges are pending as the stream takes off. -/
def Enough (pending : Pending) (stream : List NodeKey) : Prop :=
  ∀ child ∈ stream, ∃ edges, pending[child]? = some edges ∧ stream.count child ≤ edges

/-- The first child of a stream has an edge to take off, and enough are left for the rest. -/
theorem Enough.tail {pending : Pending} {child : NodeKey} {rest : List NodeKey}
    (h : Enough pending (child :: rest)) : Enough (pending.modify child (· - 1)) rest := by
  intro other hother
  obtain ⟨left, hleft, hcount⟩ := h other (List.mem_cons_of_mem child hother)
  rw [Array.getElem?_modify, hleft]
  rw [List.count_cons] at hcount
  by_cases hsame : child = other
  · exact ⟨left - 1, by simp [hsame], by simp [hsame] at hcount; omega⟩
  · exact ⟨left, by simp [hsame], by simpa [hsame] using hcount⟩

/-- Released are those of which nothing is pending after the stream, in the order of their last
occurrence. -/
theorem released_foldl_release (stream : List NodeKey) (pending : Pending)
    (released : List NodeKey) (henough : Enough pending stream) :
    (stream.foldl release (pending, released)).2 =
      released ++ stream.dedup.filter fun child => pending[child]? = some (stream.count child) := by
  induction stream generalizing pending released with
  | nil => simp
  | cons child rest ih =>
      obtain ⟨edges, hedges, hle⟩ := henough child List.mem_cons_self
      rw [List.count_cons_self] at hle
      have hpending : ∀ key, (pending.modify child (· - 1))[key]? = some (rest.count key) ↔
          pending[key]? = some ((child :: rest).count key) := by
        intro key
        rw [Array.getElem?_modify, List.count_cons]
        by_cases hkey : child = key
        · subst hkey
          simp [hedges]
          omega
        · simp [hkey]
      rw [List.foldl_cons, release, ih _ _ henough.tail]
      simp only [hpending]
      by_cases hmem : child ∈ rest
      · -- the child occurs again, so it has another pending edge and is not released yet
        have hpos := List.count_pos_iff.2 hmem
        rw [List.dedup_cons_of_mem hmem, if_neg (by rw [hedges]; simp; omega)]
      · rw [List.dedup_cons_of_notMem hmem, List.filter_cons, hedges, List.count_cons_self,
          List.count_eq_zero_of_not_mem hmem]
        split <;> simp_all

/-- A round meets a node once for each of its edges to the frontier. -/
theorem count_stream (h : Linked g) {frontier : List NodeKey} (hnodup : frontier.Nodup)
    (key : NodeKey) :
    (frontier.flatMap g.childrenOf).count key =
      (g.parentsOf key).countP fun parent => parent ∈ frontier := by
  induction frontier with
  | nil => simp
  | cons first rest ih =>
      obtain ⟨hfirst, hrest⟩ := List.nodup_cons.1 hnodup
      rw [List.flatMap_cons, List.count_append, ih hrest, ← h.count_parentsOf]
      -- the edges to the first node are told apart from those to the others
      generalize g.parentsOf key = parents
      induction parents with
      | nil => simp
      | cons parent others ih =>
          rw [List.count_cons, List.countP_cons, List.countP_cons, ← ih]
          by_cases hsame : parent = first
          · subst hsame
            simp [hfirst]
            omega
          · simp [hsame]
            omega

/-! ## The invariant of the loop -/

/-- The nodes of depth below `d` are placed and the frontier is those of depth `d`. -/
structure AtDepth (g : Graph α) (d : Nat) (placed : List NodeKey) (pending : Pending)
    (frontier : List NodeKey) : Prop where
  mem_placed : ∀ key, key ∈ placed ↔ key < g.nodes.size ∧ ∃ e < d, g.HasDepth key e
  nodup_placed : placed.Nodup
  mem_frontier : ∀ key, key ∈ frontier ↔ key < g.nodes.size ∧ g.HasDepth key d
  nodup_frontier : frontier.Nodup
  pending_eq : ∀ key < g.nodes.size,
    pending[key]? = some ((g.parentsOf key).countP fun parent => parent ∉ placed)

namespace AtDepth

variable {d : Nat} {placed frontier : List NodeKey} {pending : Pending}

theorem start (h : Linked g) (hunrouted : g.routed = false) :
    AtDepth g 0 [] g.initialPending g.roots where
  mem_placed key := by simp
  nodup_placed := List.nodup_nil
  mem_frontier key := by
    rw [roots, List.mem_filter, h.mem_realKeys_iff hunrouted, hasDepth_zero_iff, List.isEmpty_iff]
  nodup_frontier := by
    rw [roots, h.realKeys_eq_keys hunrouted, keys]
    exact List.nodup_range.filter _
  pending_eq key hkey := by
    simp [initialPending, parentsOf, node?, Array.getElem?_eq_getElem hkey]

/-- Nothing is placed twice. -/
theorem disjoint (h : AtDepth g d placed pending frontier) : placed.Disjoint frontier := by
  intro key hplaced hfrontier
  obtain ⟨-, e, he, hdepth⟩ := (h.mem_placed key).1 hplaced
  exact absurd (hdepth.unique ((h.mem_frontier key).1 hfrontier).2) (Nat.ne_of_lt he)

theorem nodup_append (h : AtDepth g d placed pending frontier) : (placed ++ frontier).Nodup :=
  h.nodup_placed.append h.nodup_frontier h.disjoint

theorem mem_append (h : AtDepth g d placed pending frontier) (key : NodeKey) :
    key ∈ placed ++ frontier ↔ key < g.nodes.size ∧ ∃ e < d + 1, g.HasDepth key e := by
  rw [List.mem_append, h.mem_placed, h.mem_frontier]
  constructor
  · rintro (⟨hkey, e, he, hdepth⟩ | ⟨hkey, hdepth⟩)
    · exact ⟨hkey, e, Nat.lt_succ_of_lt he, hdepth⟩
    · exact ⟨hkey, d, Nat.lt_succ_self d, hdepth⟩
  · rintro ⟨hkey, e, he, hdepth⟩
    rcases (Nat.le_of_lt_succ he).lt_or_eq with hlt | rfl
    · exact .inl ⟨hkey, e, hlt, hdepth⟩
    · exact .inr ⟨hkey, hdepth⟩

/-- The edges that are pending lead to the frontier or stay pending. -/
theorem countP_split (h : AtDepth g d placed pending frontier) (parents : List NodeKey) :
    (parents.countP fun parent => parent ∉ placed) =
      (parents.countP fun parent => parent ∈ frontier) +
        parents.countP fun parent => parent ∉ placed ++ frontier := by
  induction parents with
  | nil => simp
  | cons parent rest ih =>
      rw [List.countP_cons, List.countP_cons, List.countP_cons, ih]
      have hdisjoint : parent ∈ placed → parent ∉ frontier := fun hp hf => h.disjoint hp hf
      by_cases hplaced : parent ∈ placed <;> by_cases hfrontier : parent ∈ frontier <;>
        simp [hplaced, hfrontier] at hdisjoint ⊢ <;> omega

/-- A node is one deeper than the frontier exactly if no edge of it stays pending and one leads to
the frontier. -/
theorem hasDepth_succ_iff_countP (hlinked : Linked g) (h : AtDepth g d placed pending frontier)
    (key : NodeKey) :
    g.HasDepth key (d + 1) ↔
      ((g.parentsOf key).countP fun parent => parent ∉ placed ++ frontier) = 0 ∧
        0 < (g.parentsOf key).countP fun parent => parent ∈ frontier := by
  rw [hasDepth_succ_iff, List.countP_eq_zero, List.countP_pos_iff]
  refine and_congr (forall₂_congr fun parent hparent => ?_) (exists_congr fun parent => ?_)
  · have hsize := hlinked.lt_of_mem_parentsOf hparent
    simp only [decide_eq_true_eq, not_not, h.mem_append, hsize, true_and, Nat.lt_succ_iff]
  · refine and_congr_right fun hparent => ?_
    simp only [decide_eq_true_eq, h.mem_frontier, hlinked.lt_of_mem_parentsOf hparent, true_and]

/-- A round takes off no more edges of a node than are pending. -/
theorem enough (hlinked : Linked g) (h : AtDepth g d placed pending frontier) :
    Enough pending (frontier.flatMap g.childrenOf) := by
  intro child hchild
  obtain ⟨parent, -, hmem⟩ := List.mem_flatMap.1 hchild
  have hsize := g.lt_of_mem_parentsOf (hlinked.mem_childrenOf_iff.1 hmem)
  refine ⟨_, h.pending_eq child hsize, ?_⟩
  rw [count_stream hlinked h.nodup_frontier, h.countP_split]
  exact Nat.le_add_right _ _

/-- The nodes that a round releases, in the order of their last occurrence. -/
theorem released_eq (hlinked : Linked g) (h : AtDepth g d placed pending frontier) :
    (g.releaseFrontier pending frontier).2 =
      (frontier.flatMap g.childrenOf).dedup.filter fun child =>
        pending[child]? = some ((frontier.flatMap g.childrenOf).count child) := by
  rw [releaseFrontier, released_foldl_release _ _ _ (h.enough hlinked), List.nil_append]

theorem step (hlinked : Linked g) (h : AtDepth g d placed pending frontier) :
    AtDepth g (d + 1) (placed ++ frontier) (g.releaseFrontier pending frontier).1
      (g.releaseFrontier pending frontier).2 where
  mem_placed := h.mem_append
  nodup_placed := h.nodup_append
  mem_frontier key := by
    rw [h.released_eq hlinked, List.mem_filter, List.mem_dedup, decide_eq_true_eq,
      ← List.count_pos_iff, count_stream hlinked h.nodup_frontier]
    constructor
    · rintro ⟨hpos, hpending⟩
      -- as many edges lead to the frontier as are pending, so none stays pending
      obtain ⟨parent, hparent, -⟩ := List.countP_pos_iff.1 hpos
      have hsize := g.lt_of_mem_parentsOf hparent
      rw [h.pending_eq key hsize, h.countP_split, Option.some_inj] at hpending
      exact ⟨hsize, (h.hasDepth_succ_iff_countP hlinked key).2 ⟨by omega, hpos⟩⟩
    · rintro ⟨hsize, hdepth⟩
      obtain ⟨hnone, hpos⟩ := (h.hasDepth_succ_iff_countP hlinked key).1 hdepth
      refine ⟨hpos, ?_⟩
      rw [h.pending_eq key hsize, h.countP_split, hnone, Nat.add_zero]
  nodup_frontier := by
    rw [h.released_eq hlinked]
    exact (List.nodup_dedup _).filter _
  pending_eq key hkey := by
    rw [releaseFrontier, pending_foldl_release, h.pending_eq key hkey, Option.map_some,
      count_stream hlinked h.nodup_frontier, h.countP_split, Nat.add_sub_cancel_left]

/-- When nothing is placed in a round, no node is as deep or deeper. -/
theorem not_hasDepth_of_nil (hlinked : Linked g) (h : AtDepth g d placed pending [])
    {key : NodeKey} (hkey : key < g.nodes.size) {e : Nat} (he : d ≤ e) : ¬ g.HasDepth key e := by
  intro hdepth
  obtain ⟨other, hreach, hother⟩ := hdepth.exists_of_le he
  have hsize : other < g.nodes.size := by
    rcases Relation.ReflTransGen.cases_tail hreach with rfl | ⟨child, -, hparent⟩
    · exact hkey
    · exact hlinked.lt_of_mem_parentsOf hparent
  simpa using (h.mem_frontier other).2 ⟨hsize, hother⟩

/-- There are no more placed nodes than nodes. -/
theorem length_append_le (h : AtDepth g d placed pending frontier) :
    placed.length + frontier.length ≤ g.nodes.size := by
  have hsub : placed ++ frontier ⊆ g.keys := fun key hkey =>
    (mem_keys g key).2 ((h.mem_append key).1 hkey).1
  simpa [keys] using (h.nodup_append.subperm hsub).length_le

end AtDepth

/-! ## All frontiers -/

/-- From depth `d` on, with fuel for every node that is not placed yet. -/
theorem mem_frontiersFrom_iff (hlinked : Linked g) {fuel d : Nat} {placed frontier : List NodeKey}
    {pending : Pending} (h : AtDepth g d placed pending frontier)
    (hfuel : g.nodes.size ≤ fuel + placed.length) (n : Nat) (key : NodeKey) :
    (∃ keys, (g.frontiersFrom fuel pending frontier)[n]? = some keys ∧ key ∈ keys) ↔
      key < g.nodes.size ∧ g.HasDepth key (d + n) := by
  induction fuel generalizing d placed pending frontier n with
  | zero =>
      -- every node is placed, so that the frontier is empty
      have hlength := h.length_append_le
      obtain rfl : frontier = [] := List.eq_nil_of_length_eq_zero (by omega)
      simp only [frontiersFrom, List.getElem?_nil, reduceCtorEq, false_and, exists_false, false_iff]
      rintro ⟨hkey, hdepth⟩
      exact h.not_hasDepth_of_nil hlinked hkey (Nat.le_add_right d n) hdepth
  | succ fuel ih =>
      rw [frontiersFrom]
      split
      · -- the loop stops early: what has no depth by now never gets one
        rename_i hempty
        obtain rfl := List.isEmpty_iff.1 hempty
        simp only [List.getElem?_nil, reduceCtorEq, false_and, exists_false, false_iff]
        rintro ⟨hkey, hdepth⟩
        exact h.not_hasDepth_of_nil hlinked hkey (Nat.le_add_right d n) hdepth
      · rename_i hne
        have hpos : 0 < frontier.length := List.length_pos_iff.2 (by simpa using hne)
        cases n with
        | zero => simpa using h.mem_frontier key
        | succ n =>
            rw [List.getElem?_cons_succ, ih (h.step hlinked) (by rw [List.length_append]; omega) n,
              Nat.add_right_comm d 1 n, Nat.add_assoc]

theorem frontiersFrom_nodup (hlinked : Linked g) {fuel d : Nat} {placed frontier : List NodeKey}
    {pending : Pending} (h : AtDepth g d placed pending frontier) :
    ∀ keys ∈ g.frontiersFrom fuel pending frontier, keys ≠ [] ∧ keys.Nodup := by
  induction fuel generalizing d placed pending frontier with
  | zero => simp [frontiersFrom]
  | succ fuel ih =>
      rw [frontiersFrom]
      split
      · simp
      · rename_i hne
        intro keys hkeys
        rcases List.mem_cons.1 hkeys with rfl | hkeys
        · exact ⟨by simpa using hne, h.nodup_frontier⟩
        · exact ih (h.step hlinked) keys hkeys

/-- **The frontiers are the levels of depth.** -/
theorem mem_frontiers_iff (hlinked : Linked g) (hunrouted : g.routed = false) (d : Nat)
    (key : NodeKey) :
    (∃ keys, g.frontiers[d]? = some keys ∧ key ∈ keys) ↔ key < g.nodes.size ∧ g.HasDepth key d := by
  rw [frontiers, mem_frontiersFrom_iff hlinked (.start hlinked hunrouted) (by simp), Nat.zero_add]

theorem frontiers_nodup (hlinked : Linked g) (hunrouted : g.routed = false) :
    ∀ keys ∈ g.frontiers, keys ≠ [] ∧ keys.Nodup :=
  frontiersFrom_nodup hlinked (.start hlinked hunrouted)

end JobGraph.Graph
