import JobGraph.Proofs.Graph.Layouts
import Mathlib.Order.SuccPred.Archimedean

/-!
# The order of the ranks

A layering ranks the nodes in the order in which its frontiers release them.  `RankedBefore` describes
that order by the edges, without mention of the loop.

* **Depth** comes first.  Nodes without parents stand in the order of their creation.
* **Parents.**  A node is released by its last parent, the one with the highest rank: all others were
  met before.  So of two nodes of one depth, the one whose last parent comes first is released first.
* **Children.**  Edges may be parallel, and the last edge to a child releases it.  So two nodes with the
  same last parent are released in the order of their last places in its list of children.

A round meets the children of the frontier one after the other, and it releases them in the order of
their last occurrence in that stream, which is `List.dedup`.  A child occurs for the last time before
another one if some end of the stream has only the latter, `pairwise_dedup`; and an end of the stream
cuts the frontier at one parent and the list of children of this parent at one place, `suffix_flatMap`.
-/

namespace JobGraph

/-! ## Last occurrences -/

/-- The last place of a key in a list. -/
def LastPlace (list : List NodeKey) (key : NodeKey) (place : Nat) : Prop :=
  IsGreatest {place | list[place]? = some key} place

theorem exists_lastPlace {list : List NodeKey} {key : NodeKey} (hkey : key ∈ list) :
    ∃ place, LastPlace list key place := by
  apply BddAbove.exists_isGreatest_of_nonempty
  · exact ⟨list.length, fun place hplace => (List.getElem?_eq_some_iff.1 hplace).1.le⟩
  · exact List.mem_iff_getElem?.1 hkey

/-- If only one of two keys occurs in the end of a list, its last place is behind that of the other. -/
theorem lastPlace_lt_of_append {head tail : List NodeKey} {first second : NodeKey} {i j : Nat}
    (hfirst : LastPlace (head ++ tail) first i) (hsecond : LastPlace (head ++ tail) second j)
    (hnot : first ∉ tail) (hmem : second ∈ tail) : i < j := by
  have hi : i < head.length := by
    by_contra hlate
    have hplace : (head ++ tail)[i]? = some first := hfirst.1
    rw [List.getElem?_append_right (not_lt.1 hlate)] at hplace
    exact hnot (List.mem_of_getElem? hplace)
  obtain ⟨place, hplace⟩ := List.mem_iff_getElem?.1 hmem
  have hj : head.length + place ≤ j := by
    apply hsecond.2
    show (head ++ tail)[head.length + place]? = some second
    rw [List.getElem?_append_right (Nat.le_add_right _ _), Nat.add_sub_cancel_left, hplace]
  omega

/-- Without repetitions, the last occurrences are left in their order: some end of the list has the
later key only. -/
theorem pairwise_dedup (list : List NodeKey) :
    list.dedup.Pairwise fun first second => ∃ rest, rest <:+ list ∧ second ∈ rest ∧ first ∉ rest := by
  induction list with
  | nil => exact List.Pairwise.nil
  | cons key list ih =>
      have hlonger := ih.imp fun {first second} h => by
        obtain ⟨rest, hrest, hends⟩ := h
        exact (⟨rest, hrest.trans (List.suffix_cons key list), hends⟩ :
          ∃ rest, rest <:+ key :: list ∧ second ∈ rest ∧ first ∉ rest)
      by_cases hmem : key ∈ list
      · rwa [List.dedup_cons_of_mem hmem]
      · rw [List.dedup_cons_of_notMem hmem]
        refine List.Pairwise.cons (fun other hother => ?_) hlonger
        exact ⟨list, List.suffix_cons key list, List.mem_dedup.1 hother, hmem⟩

/-- An end of a stream of children cuts one of the parents' lists. -/
theorem suffix_flatMap {children : NodeKey → List NodeKey} {frontier rest : List NodeKey}
    (hsuffix : rest <:+ frontier.flatMap children) (hne : rest ≠ []) :
    ∃ before parent later tail, frontier = before ++ parent :: later ∧
      tail <:+ children parent ∧ rest = tail ++ later.flatMap children := by
  induction frontier with
  | nil => exact absurd (List.suffix_nil.1 hsuffix) hne
  | cons parent later ih =>
      rw [List.flatMap_cons] at hsuffix
      rcases List.suffix_or_suffix_of_suffix hsuffix (List.suffix_append _ _) with hlate | hearly
      · obtain ⟨before, cut, after, tail, rfl, htail, hrest⟩ := ih hlate
        exact ⟨parent :: before, cut, after, tail, rfl, htail, hrest⟩
      · obtain ⟨tail, rfl⟩ := hearly
        obtain ⟨head, hhead⟩ := hsuffix
        rw [← List.append_assoc] at hhead
        exact ⟨[], parent, later, tail, rfl, ⟨head, List.append_cancel_right hhead⟩, rfl⟩

namespace Graph

open scoped List

variable {α : Type} {g g' : Graph α} {rankOf : NodeKey → Option Nat} {key parent : NodeKey}

/-! ## The order -/

/-- Both keys are ranked, the first one lower. -/
def RankLt (rankOf : NodeKey → Option Nat) (first second : NodeKey) : Prop :=
  ∃ low high, rankOf first = some low ∧ rankOf second = some high ∧ low < high

/-- The parent is the one with the highest rank among the parents of the node. -/
structure IsLastParent (g : Graph α) (rankOf : NodeKey → Option Nat) (key parent : NodeKey)
    (rank : Nat) : Prop where
  mem : parent ∈ g.parentsOf key
  rank_eq : rankOf parent = some rank
  le : ∀ other ∈ g.parentsOf key, ∀ otherRank, rankOf other = some otherRank → otherRank ≤ rank

/-- The order in which the nodes of a graph are released, by its edges and the ranks of parents. -/
inductive RankedBefore (g : Graph α) (rankOf : NodeKey → Option Nat) (first second : NodeKey) : Prop
  /-- The longest path along parents is shorter. -/
  | depth {low high : Nat} (hfirst : g.HasDepth first low) (hsecond : g.HasDepth second high)
      (hlt : low < high)
  /-- Neither has parents, and it was created earlier. -/
  | creation (hfirst : g.parentsOf first = []) (hsecond : g.parentsOf second = [])
      (hlt : first < second)
  /-- Its last parent has a lower rank. -/
  | parent {depth low high : Nat} {firstParent secondParent : NodeKey}
      (hfirst : g.HasDepth first (depth + 1)) (hsecond : g.HasDepth second (depth + 1))
      (hfirstParent : g.IsLastParent rankOf first firstParent low)
      (hsecondParent : g.IsLastParent rankOf second secondParent high) (hlt : low < high)
  /-- Both have the same last parent, and it occurs there for the last time before the other does. -/
  | place {depth rank low high : Nat} {parent : NodeKey}
      (hfirst : g.HasDepth first (depth + 1)) (hsecond : g.HasDepth second (depth + 1))
      (hfirstParent : g.IsLastParent rankOf first parent rank)
      (hsecondParent : g.IsLastParent rankOf second parent rank)
      (hfirstPlace : LastPlace (g.childrenOf parent) first low)
      (hsecondPlace : LastPlace (g.childrenOf parent) second high) (hlt : low < high)

theorem RankLt.lt {first second : NodeKey} {low high : Nat} (h : RankLt rankOf first second)
    (hlow : rankOf first = some low) (hhigh : rankOf second = some high) : low < high := by
  obtain ⟨_, _, hfirst, hsecond, hlt⟩ := h
  rw [hlow, Option.some.injEq] at hfirst
  rw [hhigh, Option.some.injEq] at hsecond
  omega

/-- No parent has a higher rank than the last one. -/
theorem IsLastParent.not_rankLt {rank : Nat} (h : g.IsLastParent rankOf key parent rank)
    {other : NodeKey} (hother : other ∈ g.parentsOf key) : ¬ RankLt rankOf parent other := by
  rintro ⟨low, high, hlow, hhigh, hlt⟩
  have hle := h.le other hother high hhigh
  rw [h.rank_eq, Option.some.injEq] at hlow
  omega

theorem IsLastParent.rank_unique {other : NodeKey} {low high : Nat}
    (h : g.IsLastParent rankOf key parent low) (h' : g.IsLastParent rankOf key other high) :
    low = high :=
  le_antisymm (h'.le parent h.mem low h.rank_eq) (h.le other h'.mem high h'.rank_eq)

theorem HasDepth.ne_nil {d : Nat} (h : g.HasDepth key (d + 1)) : g.parentsOf key ≠ [] := by
  intro hnil
  exact absurd (h.unique (hasDepth_zero_iff.2 hnil)) (Nat.succ_ne_zero d)

/-! ## No two nodes are ranked before each other -/

namespace RankedBefore

variable {first second : NodeKey} {d low high : Nat}

theorem depth_le (h : g.RankedBefore rankOf first second) (hlow : g.HasDepth first low)
    (hhigh : g.HasDepth second high) : low ≤ high := by
  cases h with
  | depth hfirst hsecond hlt =>
      rw [hlow.unique hfirst, hhigh.unique hsecond]
      exact hlt.le
  | creation hfirst _ _ =>
      rw [hlow.unique (hasDepth_zero_iff.2 hfirst)]
      exact Nat.zero_le high
  | parent hfirst hsecond _ _ _ => exact (hlow.unique hfirst).le.trans (hhigh.unique hsecond).ge
  | place hfirst hsecond _ _ _ _ _ => exact (hlow.unique hfirst).le.trans (hhigh.unique hsecond).ge

theorem creation_lt (h : g.RankedBefore rankOf first second) (hnil : g.parentsOf first = [])
    (hnil' : g.parentsOf second = []) : first < second := by
  cases h with
  | depth hfirst hsecond hlt =>
      have hzero := hsecond.unique (hasDepth_zero_iff.2 hnil')
      omega
  | creation _ _ hlt => exact hlt
  | parent hfirst _ _ _ _ => exact absurd hnil hfirst.ne_nil
  | place hfirst _ _ _ _ _ _ => exact absurd hnil hfirst.ne_nil

theorem parentRank_le (h : g.RankedBefore rankOf first second) (hd : g.HasDepth first (d + 1))
    (hd' : g.HasDepth second (d + 1)) {firstParent secondParent : NodeKey}
    (hlow : g.IsLastParent rankOf first firstParent low)
    (hhigh : g.IsLastParent rankOf second secondParent high) : low ≤ high := by
  cases h with
  | depth hfirst hsecond hlt =>
      have hsame := (hd.unique hfirst).symm.trans (hd'.unique hsecond)
      exact absurd hlt hsame.not_lt
  | creation hfirst _ _ => exact absurd hfirst hd.ne_nil
  | parent _ _ hfirstParent hsecondParent hlt =>
      rw [hlow.rank_unique hfirstParent, hhigh.rank_unique hsecondParent]
      exact hlt.le
  | place _ _ hfirstParent hsecondParent _ _ _ =>
      exact (hlow.rank_unique hfirstParent).le.trans (hhigh.rank_unique hsecondParent).ge

theorem place_lt (h : g.RankedBefore rankOf first second)
    (hinj : ∀ key other rank, rankOf key = some rank → rankOf other = some rank → key = other)
    (hd : g.HasDepth first (d + 1)) (hd' : g.HasDepth second (d + 1)) {rank : Nat}
    (hparent : g.IsLastParent rankOf first parent rank)
    (hparent' : g.IsLastParent rankOf second parent rank)
    (hlow : LastPlace (g.childrenOf parent) first low)
    (hhigh : LastPlace (g.childrenOf parent) second high) : low < high := by
  cases h with
  | depth hfirst hsecond hlt =>
      have hsame := (hd.unique hfirst).symm.trans (hd'.unique hsecond)
      exact absurd hlt hsame.not_lt
  | creation hfirst _ _ => exact absurd hfirst hd.ne_nil
  | parent _ _ hfirstParent hsecondParent hlt =>
      have hsame := (hfirstParent.rank_unique hparent).trans (hparent'.rank_unique hsecondParent)
      exact absurd hlt hsame.not_lt
  | place _ _ hfirstParent _ hfirstPlace hsecondPlace hlt =>
      have hrank := hfirstParent.rank_eq
      rw [hfirstParent.rank_unique hparent] at hrank
      obtain rfl := hinj _ _ rank hrank hparent.rank_eq
      rwa [hlow.unique hfirstPlace, hhigh.unique hsecondPlace]

theorem asymm (h : g.RankedBefore rankOf first second)
    (hinj : ∀ key other rank, rankOf key = some rank → rankOf other = some rank → key = other) :
    ¬ g.RankedBefore rankOf second first := by
  intro hback
  cases h with
  | depth hfirst hsecond hlt => exact absurd (hback.depth_le hsecond hfirst) hlt.not_ge
  | creation hfirst hsecond hlt => exact absurd (hback.creation_lt hsecond hfirst) hlt.asymm
  | parent hfirst hsecond hfirstParent hsecondParent hlt =>
      exact absurd (hback.parentRank_le hsecond hfirst hsecondParent hfirstParent) hlt.not_ge
  | place hfirst hsecond hfirstParent hsecondParent hfirstPlace hsecondPlace hlt =>
      exact absurd (hback.place_lt hinj hsecond hfirst hsecondParent hfirstParent hsecondPlace
        hfirstPlace) hlt.asymm

end RankedBefore

/-! ## One round -/

/-- The nodes that a frontier releases are ranked in turn.  What is needed of the frontier is that it
stands in the order of ranks and holds the last parents. -/
theorem pairwise_rankedBefore_of_released (hlinked : Linked g) {d : Nat}
    {frontier released : List NodeKey} (hsorted : frontier.Pairwise (RankLt rankOf))
    (hdepth : ∀ key ∈ released, g.HasDepth key (d + 1))
    (hparent : ∀ key ∈ released, ∃ parent ∈ frontier, ∃ rank, g.IsLastParent rankOf key parent rank)
    (hreleased : released <+ (frontier.flatMap g.childrenOf).dedup) :
    released.Pairwise (g.RankedBefore rankOf) := by
  refine ((pairwise_dedup _).sublist hreleased).imp_of_mem ?_
  rintro first second hfirst hsecond ⟨rest, hrest, hmem, hnot⟩
  obtain ⟨firstParent, hfirstMem, low, hlow⟩ := hparent first hfirst
  obtain ⟨secondParent, hsecondMem, high, hhigh⟩ := hparent second hsecond
  obtain ⟨before, cut, later, tail, rfl, htail, rfl⟩ := suffix_flatMap hrest (List.ne_nil_of_mem hmem)
  rw [List.pairwise_append, List.pairwise_cons] at hsorted
  obtain ⟨-, ⟨hcutLater, -⟩, hbefore⟩ := hsorted
  rw [List.mem_append] at hmem hnot
  have hmemCut : cut ∈ cut :: later := List.mem_cons_self
  -- the last parent of the first node is not among those that come later
  have hearly : firstParent ∈ before ∨ firstParent = cut := by
    rcases List.mem_append.1 hfirstMem with hmem | hmem
    · exact .inl hmem
    · refine .inr ((List.mem_cons.1 hmem).resolve_right fun hlater => hnot (.inr ?_))
      exact List.mem_flatMap.2 ⟨firstParent, hlater, hlinked.mem_childrenOf_iff.2 hlow.mem⟩
  -- the second node has a parent there or at the cut, so its last one is not before the cut
  have hlate : secondParent ∈ later ∨ secondParent = cut ∧ second ∈ tail := by
    rcases hmem with hmem | hmem
    · have hchild := hlinked.mem_childrenOf_iff.1 (htail.subset hmem)
      rcases List.mem_append.1 hsecondMem with hother | hother
      · exact absurd (hbefore _ hother cut hmemCut) (hhigh.not_rankLt hchild)
      · exact (List.mem_cons.1 hother).symm.imp_right fun heq => ⟨heq, hmem⟩
    · obtain ⟨other, hother, hchild⟩ := List.mem_flatMap.1 hmem
      have hchild := hlinked.mem_childrenOf_iff.1 hchild
      rcases List.mem_append.1 hsecondMem with hlast | hlast
      · exact absurd (hbefore _ hlast other (List.mem_cons_of_mem cut hother))
          (hhigh.not_rankLt hchild)
      · rcases List.mem_cons.1 hlast with rfl | hlast
        · exact absurd (hcutLater other hother) (hhigh.not_rankLt hchild)
        · exact .inl hlast
  have hfirstDepth := hdepth first hfirst
  have hsecondDepth := hdepth second hsecond
  have hranks : RankLt rankOf firstParent secondParent → g.RankedBefore rankOf first second :=
    fun hlt => .parent hfirstDepth hsecondDepth hlow hhigh (hlt.lt hlow.rank_eq hhigh.rank_eq)
  rcases hearly with hearly | rfl
  · apply hranks
    rcases hlate with hlate | ⟨rfl, -⟩
    · exact hbefore _ hearly _ (List.mem_cons_of_mem cut hlate)
    · exact hbefore _ hearly _ hmemCut
  · rcases hlate with hlate | ⟨rfl, hmemTail⟩
    · exact hranks (hcutLater _ hlate)
    · -- both wait for the same parent, and only the second one occurs in the end of its list
      obtain ⟨head, hhead⟩ := htail
      obtain ⟨i, hi⟩ := exists_lastPlace (hlinked.mem_childrenOf_iff.2 hlow.mem)
      obtain ⟨j, hj⟩ := exists_lastPlace (hlinked.mem_childrenOf_iff.2 hhigh.mem)
      have hsame : low = high := Option.some.inj (hlow.rank_eq.symm.trans hhigh.rank_eq)
      subst hsame
      refine .place hfirstDepth hsecondDepth hlow hhigh hi hj ?_
      rw [← hhead] at hi hj
      exact lastPlace_lt_of_append hi hj (fun hmem => hnot (.inl hmem)) hmemTail

/-! ## All rounds -/

theorem getElem?_frontiersFrom_zero {fuel : Nat} {pending : Pending} {frontier keys : List NodeKey}
    (hkeys : (g.frontiersFrom fuel pending frontier)[0]? = some keys) : keys = frontier := by
  cases fuel with
  | zero => simp [frontiersFrom] at hkeys
  | succ fuel =>
      rw [frontiersFrom] at hkeys
      split at hkeys
      · simp at hkeys
      · exact (Option.some.inj hkeys).symm

/-- A frontier is what the one before releases. -/
theorem sublist_dedup_frontiersFrom (hlinked : Linked g) {fuel d : Nat}
    {placed frontier : List NodeKey} {pending : Pending} (h : AtDepth g d placed pending frontier)
    {n : Nat} {keys next : List NodeKey}
    (hkeys : (g.frontiersFrom fuel pending frontier)[n]? = some keys)
    (hnext : (g.frontiersFrom fuel pending frontier)[n + 1]? = some next) :
    next <+ (keys.flatMap g.childrenOf).dedup := by
  induction fuel generalizing d placed pending frontier n with
  | zero => simp [frontiersFrom] at hkeys
  | succ fuel ih =>
      rw [frontiersFrom] at hkeys hnext
      split at hkeys
      · simp at hkeys
      · rename_i hne
        rw [if_neg hne] at hnext
        cases n with
        | zero =>
            obtain rfl : frontier = keys := Option.some.inj hkeys
            have hreleased : next = (g.releaseFrontier pending frontier).2 :=
              getElem?_frontiersFrom_zero hnext
            rw [hreleased, h.released_eq hlinked]
            exact List.filter_sublist
        | succ n => exact ih (h.step hlinked) hkeys hnext

section Levelled

variable (hlinked : Linked g) (hunrouted : g.routed = false)

include hlinked hunrouted

theorem sublist_dedup_layers_levelled {n : Nat} {keys next : List NodeKey}
    (hkeys : g.levelled.layers[n]? = some keys) (hnext : g.levelled.layers[n + 1]? = some next) :
    next <+ (keys.flatMap g.childrenOf).dedup := by
  have hbare : Linked g.clearLayout := hlinked.of_clearLayout_eq (by simp [clearLayout])
  have hstart := AtDepth.start hbare (by simpa [clearLayout] using hunrouted)
  rw [← funext (childrenOf_clearLayout g)]
  exact sublist_dedup_frontiersFrom hbare hstart hkeys hnext

theorem pairwise_layers_levelled_zero {keys : List NodeKey}
    (hkeys : g.levelled.layers[0]? = some keys) : keys.Pairwise (· < ·) := by
  have hbare : Linked g.clearLayout := hlinked.of_clearLayout_eq (by simp [clearLayout])
  rw [getElem?_frontiersFrom_zero hkeys, roots,
    hbare.realKeys_eq_keys (by simpa [clearLayout] using hunrouted), Graph.keys]
  exact List.pairwise_lt_range.filter _

theorem pairwise_rankLt_ranking_levelled : g.levelled.ranking.Pairwise (RankLt g.levelled.rankOf) := by
  have hplaced := placed_levelled hlinked hunrouted
  rw [List.pairwise_iff_getElem]
  intro low high hlow hhigh hlt
  exact ⟨low, high, (hplaced.rankOf_iff _ low).2 (List.getElem?_eq_getElem hlow),
    (hplaced.rankOf_iff _ high).2 (List.getElem?_eq_getElem hhigh), hlt⟩

/-- Of nodes with ranks, the one with the lower rank is not deeper. -/
theorem depth_le_of_rank_le {first second : NodeKey} {low high : Nat}
    (hlow : g.levelled.rankOf first = some low) (hhigh : g.levelled.rankOf second = some high)
    (hle : low ≤ high) : g.depth first ≤ g.depth second := by
  have hplaced := placed_levelled hlinked hunrouted
  obtain ⟨hl, rfl⟩ := List.getElem?_eq_some_iff.1 ((hplaced.rankOf_iff _ low).1 hlow)
  obtain ⟨hh, rfl⟩ := List.getElem?_eq_some_iff.1 ((hplaced.rankOf_iff _ high).1 hhigh)
  rcases hle.lt_or_eq with hlt | rfl
  · exact List.pairwise_iff_getElem.1 (pairwise_ranking_levelled hlinked hunrouted) low high hl hh hlt
  · exact le_rfl

/-- The parents of a ranked node have ranks, and one of them the highest. -/
theorem exists_isLastParent (hkey : key ∈ g.levelled.ranking) (hne : g.parentsOf key ≠ []) :
    ∃ parent rank, g.IsLastParent g.levelled.rankOf key parent rank := by
  have hplaced := placed_levelled hlinked hunrouted
  obtain ⟨highest, ⟨parent, hparent, hrank⟩, hle⟩ :
      ∃ highest, IsGreatest {rank | ∃ parent ∈ g.parentsOf key, g.levelled.rankOf parent = some rank}
        highest := by
    apply BddAbove.exists_isGreatest_of_nonempty
    · refine ⟨g.levelled.ranking.length, ?_⟩
      rintro rank ⟨parent, -, hrank⟩
      exact (List.getElem?_eq_some_iff.1 ((hplaced.rankOf_iff parent rank).1 hrank)).1.le
    · obtain ⟨parent, hparent⟩ := List.exists_mem_of_ne_nil _ hne
      have hranked := (parent_mem_ranking_levelled hlinked hunrouted hkey hparent).1
      obtain ⟨rank, hrank⟩ := List.mem_iff_getElem?.1 hranked
      exact ⟨rank, parent, hparent, (hplaced.rankOf_iff parent rank).2 hrank⟩
  exact ⟨parent, highest, hparent, hrank, fun other hother rank hrank => hle ⟨other, hother, hrank⟩⟩

/-- The last parent is one of the deepest ones. -/
theorem hasDepth_isLastParent {d rank : Nat} (hkey : g.HasDepth key (d + 1))
    (hparent : g.IsLastParent g.levelled.rankOf key parent rank) : g.HasDepth parent d := by
  obtain ⟨hall, deepest, hdeepest, hdepth⟩ := hasDepth_succ_iff.1 hkey
  obtain ⟨e, he, hparentDepth⟩ := hall parent hparent.mem
  have hplaced := placed_levelled hlinked hunrouted
  have hranked : deepest ∈ g.levelled.ranking := (mem_ranking_levelled_iff hlinked hunrouted _).2
    ⟨hlinked.lt_of_mem_parentsOf hdeepest, d, hdepth⟩
  obtain ⟨other, hother⟩ := List.mem_iff_getElem?.1 hranked
  have hother := (hplaced.rankOf_iff deepest other).2 hother
  have hle := depth_le_of_rank_le hlinked hunrouted hother hparent.rank_eq
    (hparent.le deepest hdeepest other hother)
  rw [hdepth.depth_eq, hparentDepth.depth_eq] at hle
  exact le_antisymm he hle ▸ hparentDepth

/-- The ranking lists the nodes in the order of their releases. -/
theorem pairwise_rankedBefore_ranking :
    g.levelled.ranking.Pairwise (g.RankedBefore g.levelled.rankOf) := by
  have hdepths : ∀ d keys, g.levelled.layers[d]? = some keys → ∀ key ∈ keys, g.HasDepth key d :=
    fun d keys hkeys key hkey =>
      ((mem_layers_levelled_iff hlinked hunrouted d key).1 ⟨keys, hkeys, hkey⟩).2
  refine List.pairwise_flatten.2 ⟨fun keys hkeys => ?_, List.pairwise_iff_getElem.2 ?_⟩
  · obtain ⟨d, hd⟩ := List.mem_iff_getElem?.1 hkeys
    cases d with
    | zero =>
        refine (pairwise_layers_levelled_zero hlinked hunrouted hd).imp_of_mem ?_
        intro first second hfirst hsecond hlt
        exact .creation (hasDepth_zero_iff.1 (hdepths 0 keys hd first hfirst))
          (hasDepth_zero_iff.1 (hdepths 0 keys hd second hsecond)) hlt
    | succ d =>
        have hd' : d < g.levelled.layers.length :=
          (Nat.lt_succ_self d).trans (List.getElem?_eq_some_iff.1 hd).1
        have hbefore := List.getElem?_eq_getElem hd'
        have hsub : g.levelled.layers[d] <+ g.levelled.ranking :=
          List.sublist_flatten_of_mem (List.getElem_mem hd')
        refine pairwise_rankedBefore_of_released hlinked
          ((pairwise_rankLt_ranking_levelled hlinked hunrouted).sublist hsub)
          (hdepths (d + 1) keys hd) (fun key hkey => ?_)
          (sublist_dedup_layers_levelled hlinked hunrouted hbefore hd)
        have hdepth := hdepths (d + 1) keys hd key hkey
        have hranked : key ∈ g.levelled.ranking := List.mem_flatten.2 ⟨keys, hkeys, hkey⟩
        obtain ⟨parent, rank, hparent⟩ :=
          exists_isLastParent hlinked hunrouted hranked hdepth.ne_nil
        obtain ⟨others, hothers, hmem⟩ := (mem_layers_levelled_iff hlinked hunrouted d parent).2
          ⟨hlinked.lt_of_mem_parentsOf hparent.mem,
            hasDepth_isLastParent hlinked hunrouted hdepth hparent⟩
        rw [hbefore, Option.some.injEq] at hothers
        exact ⟨parent, hothers ▸ hmem, rank, hparent⟩
  · intro low high hlow hhigh hlt first hfirst second hsecond
    exact .depth (hdepths low _ (List.getElem?_eq_getElem hlow) first hfirst)
      (hdepths high _ (List.getElem?_eq_getElem hhigh) second hsecond) hlt

end Levelled

/-! ## The order of a layering -/

/-- The ranks of the nodes are the order in which the edges of the graph release them. -/
structure RankOrder (g : Graph α) (rankOf : NodeKey → Option Nat) : Prop where
  lt_iff : ∀ first second low high, rankOf first = some low → rankOf second = some high →
    (low < high ↔ g.RankedBefore rankOf first second)
  /-- Paths along the parents of a ranked node have a longest one. -/
  exists_hasDepth : ∀ key rank, rankOf key = some rank → ∃ depth, g.HasDepth key depth
  /-- If it has parents, one of them is the last, and the node has a last place among its children. -/
  exists_isLastParent : ∀ key rank, rankOf key = some rank → g.parentsOf key ≠ [] →
    ∃ parent parentRank place, g.IsLastParent rankOf key parent parentRank ∧
      LastPlace (g.childrenOf parent) key place

/-- **The order of the ranks.**  After a layering of a graph, whatever operations led to it, a ranked
node has a lower rank than another one exactly if it is released earlier. -/
theorem Reachable.rankOrder_assignLayers (h : Reachable g) {policy : CyclePolicy}
    {report : LayeringReport} (hok : g.assignLayers policy = (g', .ok report)) :
    RankOrder g g'.rankOf := by
  have hlinked := h.consistent.toLinked
  obtain ⟨hunrouted, rfl, -⟩ := eq_compacted_of_assignLayers hok
  have hrank : ({ g.compacted with sorted := true } : Graph α).rankOf = g.levelled.rankOf :=
    rankOf_compacted hlinked hunrouted
  rw [hrank]
  have hplaced := placed_levelled hlinked hunrouted
  have hranked : ∀ key rank, g.levelled.rankOf key = some rank → key ∈ g.levelled.ranking :=
    fun key rank hkey => List.mem_of_getElem? ((hplaced.rankOf_iff key rank).1 hkey)
  have hinj : ∀ key other rank, g.levelled.rankOf key = some rank →
      g.levelled.rankOf other = some rank → key = other := by
    intro key other rank hkey hother
    rw [hplaced.rankOf_iff] at hkey hother
    exact Option.some.inj (hkey.symm.trans hother)
  have hbefore : ∀ first second low high, g.levelled.rankOf first = some low →
      g.levelled.rankOf second = some high → low < high →
        g.RankedBefore g.levelled.rankOf first second := by
    intro first second low high hlow hhigh hlt
    obtain ⟨hl, rfl⟩ := List.getElem?_eq_some_iff.1 ((hplaced.rankOf_iff _ low).1 hlow)
    obtain ⟨hh, rfl⟩ := List.getElem?_eq_some_iff.1 ((hplaced.rankOf_iff _ high).1 hhigh)
    exact List.pairwise_iff_getElem.1 (pairwise_rankedBefore_ranking hlinked hunrouted) low high
      hl hh hlt
  refine ⟨fun first second low high hlow hhigh => ⟨hbefore first second low high hlow hhigh, ?_⟩,
    fun key rank hkey => ?_, fun key rank hkey hne => ?_⟩
  · -- the ranks cannot be equal or the other way round
    intro hrankedBefore
    by_contra hge
    rcases (not_lt.1 hge).lt_or_eq with hgt | rfl
    · exact hrankedBefore.asymm hinj (hbefore second first high low hhigh hlow hgt)
    · obtain rfl := hinj first second _ hlow hhigh
      exact hrankedBefore.asymm hinj hrankedBefore
  · exact ((mem_ranking_levelled_iff hlinked hunrouted key).1 (hranked key rank hkey)).2
  · obtain ⟨parent, parentRank, hparent⟩ :=
      exists_isLastParent hlinked hunrouted (hranked key rank hkey) hne
    obtain ⟨place, hplace⟩ := exists_lastPlace (hlinked.mem_childrenOf_iff.2 hparent.mem)
    exact ⟨parent, parentRank, place, hparent, hplace⟩

/-- Two nodes that wait for the same two parents.  The second edge to one of them delays it. -/
def delayed : Graph Unit :=
  empty.run [.addNode "a" (), .addNode "b" (), .addNode "c" (), .addNode "d" (), .addEdge 2 0,
    .addEdge 2 1, .addEdge 3 0, .addEdge 3 1, .addEdge 2 1]

theorem rankOrder_delayed :
    ∃ g' report, delayed.assignLayers .strict = (g', .ok report) ∧ RankOrder delayed g'.rankOf ∧
      g'.rankOf 3 = some 2 ∧ g'.rankOf 2 = some 3 := by
  obtain ⟨g', report, hok, hthree, htwo⟩ : ∃ g' report,
      delayed.assignLayers .strict = (g', .ok report) ∧ g'.rankOf 3 = some 2 ∧
        g'.rankOf 2 = some 3 := by
    refine ⟨_, ⟨2, 0, []⟩, Prod.ext rfl ?_, ?_⟩ <;> decide +kernel
  exact ⟨g', report, hok, (Reachable.empty.run _).rankOrder_assignLayers hok, hthree, htwo⟩

end Graph

end JobGraph
