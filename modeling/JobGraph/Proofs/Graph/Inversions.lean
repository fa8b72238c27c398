import JobGraph.Graph.Ordering
import Mathlib.Algebra.BigOperators.Group.List.Basic
import Mathlib.Tactic

/-!
# Crossings as a cost of pairs

The crossings of a list of edges are a sum over its pairs, `pairCost`.  If the edges come in bundles,
one for each node of a layer, then edges of one bundle do not cross, and what two bundles cost are
the `inversions` between the places of their other ends.  So the crossings between two layers depend
on the order of a layer only through which of two nodes comes first.

* `pairCost_le_of_perm`: an order in which no pair is cheaper the other way round is the cheapest.
* `inversions_le_of_mul_le`: of two nodes with at most two neighbours each, it is cheaper to put the
  one first whose neighbours have the smaller mean place.  With three neighbours this fails.
-/

namespace JobGraph.Graph

variable {β γ : Type}

/-! ## Costs of pairs -/

/-- What the pairs of a list cost, each in the order of the list. -/
def pairCost (cost : β → β → Nat) : List β → Nat
  | [] => 0
  | first :: rest => (rest.map (cost first)).sum + pairCost cost rest

variable {cost cost' : β → β → Nat} {list others : List β}

theorem pairCost_mono (h : list.Pairwise fun first second =>
    cost first second ≤ cost' first second) : pairCost cost list ≤ pairCost cost' list := by
  induction h with
  | nil => exact le_refl 0
  | cons hfirst _ ih => exact Nat.add_le_add (List.sum_le_sum hfirst) ih

theorem pairCost_congr (h : list.Pairwise fun first second =>
    cost first second = cost' first second) : pairCost cost list = pairCost cost' list :=
  le_antisymm (pairCost_mono (h.imp le_of_eq)) (pairCost_mono (h.imp ge_of_eq))

theorem pairCost_eq_zero (h : list.Pairwise fun first second => cost first second = 0) :
    pairCost cost list = 0 := by
  induction h with
  | nil => rfl
  | @cons first rest hfirst _ ih =>
      have hsum : (rest.map (cost first)).sum = 0 := by
        rw [List.map_congr_left hfirst]
        simp
      rw [pairCost, hsum, ih]

/-- If it does not matter who comes first, the order does not matter. -/
theorem pairCost_perm (hsymm : ∀ first second, cost first second = cost second first)
    (h : list.Perm others) : pairCost cost list = pairCost cost others := by
  induction h with
  | nil => rfl
  | cons first hrest ih => rw [pairCost, pairCost, (hrest.map (cost first)).sum_eq, ih]
  | swap first second rest =>
      simp only [pairCost, List.map_cons, List.sum_cons]
      have := hsymm first second
      omega
  | trans _ _ ih ih' => exact ih.trans ih'

/-- An order in which no pair is cheaper the other way round is the cheapest. -/
theorem pairCost_le_of_perm
    (hsorted : list.Pairwise fun first second => cost first second ≤ cost second first)
    (h : list.Perm others) : pairCost cost list ≤ pairCost cost others := by
  calc pairCost cost list
      _ ≤ pairCost (fun first second => min (cost first second) (cost second first)) list := by
        apply pairCost_mono
        exact hsorted.imp fun hle => le_min (le_refl _) hle
      _ = pairCost (fun first second => min (cost first second) (cost second first)) others :=
        pairCost_perm (fun first second => min_comm _ _) h
      _ ≤ pairCost cost others := by
        apply pairCost_mono
        exact List.pairwise_of_forall fun first second => min_le_left _ _

theorem pairCost_append (cost : β → β → Nat) (list others : List β) :
    pairCost cost (list ++ others) = pairCost cost list + pairCost cost others +
      (list.map fun first => (others.map (cost first)).sum).sum := by
  induction list with
  | nil => simp [pairCost]
  | cons first rest ih =>
      simp only [List.cons_append, pairCost, ih, List.map_append, List.sum_append, List.map_cons,
        List.sum_cons]
      omega

/-- The pairs of a list that comes in parts are those inside the parts and those between them. -/
theorem pairCost_flatMap (cost : β → β → Nat) (parts : γ → List β) (keys : List γ) :
    pairCost cost (keys.flatMap parts) =
      (keys.map fun key => pairCost cost (parts key)).sum +
        pairCost (fun key other =>
          ((parts key).map fun first => ((parts other).map (cost first)).sum).sum) keys := by
  induction keys with
  | nil => rfl
  | cons key rest ih =>
      have hbetween : ((parts key).map fun first =>
            ((rest.flatMap parts).map (cost first)).sum).sum =
          (rest.map fun other =>
            ((parts key).map fun first => ((parts other).map (cost first)).sum).sum).sum := by
        clear ih
        induction rest with
        | nil => simp
        | cons other rest ih =>
            simp only [List.flatMap_cons, List.map_append, List.sum_append, List.sum_map_add, ih,
              List.map_cons, List.sum_cons]
      rw [List.flatMap_cons, pairCost_append, ih, hbetween, pairCost, List.map_cons, List.sum_cons]
      omega

/-! ## Crossings -/

theorem crosses_comm (first second : Nat × Nat) : crosses first second = crosses second first := by
  rw [crosses, crosses, Bool.or_comm]

theorem crosses_swap (first second : Nat × Nat) :
    crosses first.swap second.swap = crosses first second := by
  rw [crosses, crosses, Bool.or_comm]
  exact congrArg₂ (· || ·) (Bool.and_comm _ _) (Bool.and_comm _ _)

/-- A count is a sum over the list. -/
theorem countP_eq_sum_toNat (test : β → Bool) (list : List β) :
    list.countP test = (list.map fun item => (test item).toNat).sum := by
  induction list with
  | nil => rfl
  | cons item rest ih =>
      rw [List.countP_cons, ih, List.map_cons, List.sum_cons, Nat.add_comm]
      cases test item <;> rfl

theorem crossingPairs_eq_pairCost (edges : List (Nat × Nat)) :
    crossingPairs edges = pairCost (fun first second => (crosses first second).toNat) edges := by
  induction edges with
  | nil => rfl
  | cons first rest ih => rw [crossingPairs, pairCost, ih, countP_eq_sum_toNat]

/-- The order of the edges does not matter. -/
theorem crossingPairs_perm {edges others : List (Nat × Nat)} (h : edges.Perm others) :
    crossingPairs edges = crossingPairs others := by
  rw [crossingPairs_eq_pairCost, crossingPairs_eq_pairCost]
  apply pairCost_perm _ h
  intro first second
  rw [crosses_comm]

/-- Nor does it matter which ends of the edges are the upper ones. -/
theorem crossingPairs_swap (edges : List (Nat × Nat)) :
    crossingPairs (edges.map Prod.swap) = crossingPairs edges := by
  induction edges with
  | nil => rfl
  | cons first rest ih =>
      rw [List.map_cons, crossingPairs, crossingPairs, ih, List.countP_map]
      congr 1
      exact List.countP_congr fun second _ => by rw [Function.comp_apply, crosses_swap]

/-! ## Bundles -/

/-- How often a number of the first list is above one of the second. -/
def inversions (first second : List Nat) : Nat :=
  (first.map fun high => second.countP fun low => low < high).sum

theorem inversions_nil_left (second : List Nat) : inversions [] second = 0 :=
  rfl

theorem inversions_nil_right (first : List Nat) : inversions first [] = 0 := by
  simp [inversions]

theorem crosses_of_lt {first second : Nat × Nat} (h : first.1 < second.1) :
    crosses first second = decide (second.2 < first.2) := by
  rw [crosses, decide_eq_true h, decide_eq_false (Nat.lt_asymm h), Bool.true_and, Bool.false_and,
    Bool.or_false]

/-- Edges of one bundle do not cross. -/
theorem pairCost_bundle_eq_zero (place : Nat) (ends : List Nat) :
    pairCost (fun first second => (crosses first second).toNat) (ends.map (Prod.mk place)) = 0 := by
  apply pairCost_eq_zero
  rw [List.pairwise_map]
  apply List.pairwise_of_forall
  intro first second
  simp [crosses]

/-- Edges of two bundles cross as often as there are inversions between them. -/
theorem sum_crosses_bundles {place other : Nat} (hlt : place < other) (first second : List Nat) :
    ((first.map (Prod.mk place)).map fun edge =>
      ((second.map (Prod.mk other)).map fun edge' => (crosses edge edge').toNat).sum).sum =
        inversions first second := by
  rw [inversions, List.map_map]
  congr 1
  apply List.map_congr_left
  intro high _
  rw [countP_eq_sum_toNat, Function.comp_apply, List.map_map]
  congr 1
  apply List.map_congr_left
  intro low _
  rw [Function.comp_apply, crosses_of_lt hlt]

/-- If the nodes stand in the order of the list, their bundles cost the inversions between them. -/
theorem crossingPairs_bundles (place : γ → Nat) (ends : γ → List Nat) {keys : List γ}
    (hplaces : keys.Pairwise fun key other => place key < place other) :
    crossingPairs (keys.flatMap fun key => (ends key).map (Prod.mk (place key))) =
      pairCost (fun key other => inversions (ends key) (ends other)) keys := by
  have hinside : (keys.map fun key =>
      pairCost (fun first second => (crosses first second).toNat)
        ((ends key).map (Prod.mk (place key)))).sum = 0 := by
    simp [pairCost_bundle_eq_zero]
  rw [crossingPairs_eq_pairCost, pairCost_flatMap, hinside, Nat.zero_add]
  apply pairCost_congr
  exact hplaces.imp fun hlt => sum_crosses_bundles hlt _ _

/-! ## Few neighbours -/

section Few

variable {first second : List Nat}

theorem eq_singleton_or_pair {list : List β} (hne : list ≠ []) (hle : list.length ≤ 2) :
    (∃ a, list = [a]) ∨ ∃ a b, list = [a, b] := by
  have hpos := List.length_pos_iff.2 hne
  rw [← List.length_eq_one_iff, ← List.length_eq_two]
  omega

/-- The list with the smaller mean, as a comparison of products, has no more inversions when it comes
first, provided that neither has more than two numbers. -/
theorem inversions_le_of_mul_le (hfirst : first.length ≤ 2) (hsecond : second.length ≤ 2)
    (hle : first.sum * second.length ≤ second.sum * first.length) :
    inversions first second ≤ inversions second first := by
  by_cases hnil : first = []
  · rw [hnil, inversions_nil_left]
    exact Nat.zero_le _
  by_cases hnil' : second = []
  · rw [hnil', inversions_nil_right]
    exact Nat.zero_le _
  -- as many numbers of the one list are above one of the other as below one of the other
  obtain ⟨a, rfl⟩ | ⟨a, b, rfl⟩ := eq_singleton_or_pair hnil hfirst <;>
    obtain ⟨c, rfl⟩ | ⟨c, d, rfl⟩ := eq_singleton_or_pair hnil' hsecond
  all_goals
    simp only [inversions, List.map_cons, List.map_nil, List.sum_cons, List.sum_nil,
      List.countP_cons, List.countP_nil, decide_eq_true_eq, List.length_cons, List.length_nil]
      at hle ⊢
    grind

/-- Between lists of one number there are none. -/
theorem inversions_eq_zero_of_mul_le (hfirst : first.length ≤ 1) (hsecond : second.length ≤ 1)
    (hle : first.sum * second.length ≤ second.sum * first.length) :
    inversions first second = 0 := by
  by_cases hnil : first = []
  · rw [hnil, inversions_nil_left]
  by_cases hnil' : second = []
  · rw [hnil', inversions_nil_right]
  obtain ⟨a, rfl⟩ := List.length_eq_one_iff.1 (hfirst.antisymm (List.length_pos_iff.2 hnil))
  obtain ⟨b, rfl⟩ := List.length_eq_one_iff.1 (hsecond.antisymm (List.length_pos_iff.2 hnil'))
  simp only [List.sum_cons, List.sum_nil, List.length_cons, List.length_nil] at hle
  have hnot : ¬ b < a := by omega
  simp [inversions, hnot]

end Few

/-- With three neighbours the node whose mean place is smaller may cost less when it comes last. -/
example : [0, 3, 4].sum * [2, 3].length ≤ [2, 3].sum * [0, 3, 4].length ∧
    inversions [0, 3, 4] [2, 3] = 3 ∧ inversions [2, 3] [0, 3, 4] = 2 := by
  decide

end JobGraph.Graph
