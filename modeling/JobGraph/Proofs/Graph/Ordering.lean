import JobGraph.Graph.Ordering
import JobGraph.Proofs.Graph.Consistency

/-!
# What an ordering preserves

A sweep sorts the lists of the layers one after the other and puts nothing on another layer:
`Reordered`.  So the layers of an ordered graph have the nodes they had before.
-/

namespace JobGraph.Graph

variable {α : Type} {g : Graph α}

/-- The same number of layers, and on each the same nodes in some order. -/
structure Reordered (old new : List (List NodeKey)) : Prop where
  length_eq : new.length = old.length
  perm : ∀ (layer : Nat) (keys : List NodeKey), old[layer]? = some keys →
    ∃ others, new[layer]? = some others ∧ others.Perm keys

namespace Reordered

variable {first second third : List (List NodeKey)}

theorem refl (layers : List (List NodeKey)) : Reordered layers layers :=
  ⟨rfl, fun _ keys hkeys => ⟨keys, hkeys, .refl keys⟩⟩

theorem trans (h : Reordered first second) (h' : Reordered second third) :
    Reordered first third := by
  refine ⟨h'.length_eq.trans h.length_eq, fun layer keys hkeys => ?_⟩
  obtain ⟨others, hothers, hperm⟩ := h.perm layer keys hkeys
  obtain ⟨last, hlast, hperm'⟩ := h'.perm layer others hothers
  exact ⟨last, hlast, hperm'.trans hperm⟩

/-- What is on a layer afterwards was there before. -/
theorem perm_of_new (h : Reordered first second) {layer : Nat} {others : List NodeKey}
    (hothers : second[layer]? = some others) :
    ∃ keys, first[layer]? = some keys ∧ others.Perm keys := by
  have hlt : layer < first.length := by
    rw [← h.length_eq]
    exact (List.getElem?_eq_some_iff.1 hothers).1
  obtain ⟨found, hfound, hperm⟩ := h.perm layer _ (List.getElem?_eq_getElem hlt)
  rw [hothers, Option.some.injEq] at hfound
  exact ⟨_, List.getElem?_eq_getElem hlt, hfound ▸ hperm⟩

/-- Steps that reorder make a run that reorders. -/
theorem foldl {β : Type} {step : List (List NodeKey) → β → List (List NodeKey)}
    (hstep : ∀ layers b, Reordered layers (step layers b)) (bs : List β)
    (layers : List (List NodeKey)) : Reordered layers (bs.foldl step layers) := by
  induction bs generalizing layers with
  | nil => exact refl layers
  | cons b bs ih => exact (hstep layers b).trans (ih (step layers b))

end Reordered

/-! ## Sweeps -/

theorem reordered_orderLayer (neighbours : NodeKey → List NodeKey) (layers : List (List NodeKey))
    (layer : Nat) : Reordered layers (orderLayer neighbours layers layer) := by
  refine ⟨by simp [orderLayer], fun other keys hkeys => ?_⟩
  rw [orderLayer, List.getElem?_modify, hkeys, Option.map_eq_map, Option.map_some]
  split
  · exact ⟨_, rfl, List.mergeSort_perm keys _⟩
  · exact ⟨keys, rfl, .refl keys⟩

theorem reordered_sweep (g : Graph α) (layers : List (List NodeKey)) (round : Nat) :
    Reordered layers (g.sweep layers round) := by
  unfold sweep
  split
  · exact .foldl (reordered_orderLayer g.parentsOf) _ layers
  · exact .foldl (reordered_orderLayer g.childrenOf) _ layers

/-- An ordering changes nothing but the order inside the layers. -/
theorem orderLayers_fst (g : Graph α) (sweeps : Nat) :
    ∃ layers, (g.orderLayers sweeps).1 = { g with layers } ∧ Reordered g.layers layers := by
  unfold orderLayers
  split
  · exact ⟨g.layers, rfl, .refl g.layers⟩
  · split
    · exact ⟨g.layers, rfl, .refl g.layers⟩
    · exact ⟨_, rfl, .foldl (reordered_sweep g) _ g.layers⟩

/-! ## Consistency -/

theorem Placed.of_reordered (h : Placed g) {layers : List (List NodeKey)}
    (hreordered : Reordered g.layers layers) : Placed { g with layers } where
  rankOf_iff := h.rankOf_iff
  layerOf_iff key layer := by
    refine (h.layerOf_iff key layer).trans ⟨?_, ?_⟩
    · rintro ⟨keys, hkeys, hkey⟩
      obtain ⟨others, hothers, hperm⟩ := hreordered.perm layer keys hkeys
      exact ⟨others, hothers, hperm.mem_iff.2 hkey⟩
    · rintro ⟨others, hothers, hkey⟩
      obtain ⟨keys, hkeys, hperm⟩ := hreordered.perm_of_new hothers
      exact ⟨keys, hkeys, hperm.mem_iff.1 hkey⟩
  nodup_layers others hothers := by
    obtain ⟨layer, hlayer⟩ := List.mem_iff_getElem?.1 hothers
    obtain ⟨keys, hkeys, hperm⟩ := hreordered.perm_of_new hlayer
    exact hperm.nodup_iff.2 (h.nodup_layers keys (List.mem_of_getElem? hkeys))

theorem Consistent.orderLayers (h : Consistent g) (sweeps : Nat) :
    Consistent (g.orderLayers sweeps).1 := by
  obtain ⟨layers, heq, hreordered⟩ := g.orderLayers_fst sweeps
  rw [heq]
  exact ⟨h.toLinked.congr rfl rfl rfl rfl rfl rfl rfl, h.toPlaced.of_reordered hreordered⟩

end JobGraph.Graph
