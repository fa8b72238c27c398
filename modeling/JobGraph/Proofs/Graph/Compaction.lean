import JobGraph.Proofs.Graph.Ranking

/-!
# Compaction

One pass over the placed nodes, the last rank first, lifts every node to just below its lowest
child, and then nothing is left to lift: `Settled`.

The pass carries `Lifting`.  The nodes that are done are settled and stay so: whoever is lifted later
has no greater depth than they have, so it is none of their children.  The nodes that are left stand
on the layer of their depth.  A child stands at least on the layer of its own depth, which is above
the depth of its parents; hence a node with placed children has a place below them, and what compaction
moves it moves up.

A layer lists first the nodes that stayed on it, by rank, and then those lifted to it, the last rank
first: `stayed` and `lifted`.
-/

namespace JobGraph.Graph

variable {α : Type} {g g' g₀ : Graph α}

/-! ## The place of a node above its parents -/

theorem lowestChildLayer_eq_some_iff {key : NodeKey} {low : Nat} :
    g.lowestChildLayer key = some low ↔
      IsLeast {layer | ∃ child ∈ g.childrenOf key, g.layerOf child = some layer} low := by
  rw [lowestChildLayer, List.min?_eq_some_iff]
  simp only [List.mem_filterMap]
  rfl

theorem lowestChildLayer_eq_none_iff {key : NodeKey} :
    g.lowestChildLayer key = none ↔ ∀ child ∈ g.childrenOf key, g.layerOf child = none := by
  rw [lowestChildLayer, List.min?_eq_none_iff, List.filterMap_eq_nil_iff]

theorem lowestChildLayer_congr (hchildren : g'.childrenOf = g.childrenOf) {key : NodeKey}
    (hlayer : ∀ child ∈ g.childrenOf key, g'.layerOf child = g.layerOf child) :
    g'.lowestChildLayer key = g.lowestChildLayer key := by
  rw [lowestChildLayer, lowestChildLayer, hchildren, List.filterMap_congr hlayer]

/-- The node stands where a layering leaves it: just below its lowest child, or on the layer of its
depth when no child is placed. -/
def Settled (g : Graph α) (key : NodeKey) : Prop :=
  (g.lowestChildLayer key = none → g.layerOf key = some (g.depth key)) ∧
    ∀ low, g.lowestChildLayer key = some low → 0 < low ∧ g.layerOf key = some (low - 1)

/-! ## Moving one node -/

theorem clearLayout_moveToLayer (g : Graph α) (key : NodeKey) (current target : Nat) :
    (g.moveToLayer key current target).clearLayout = g.clearLayout := by
  have hnodes : (g.moveToLayer key current target).nodes.map
      (fun node => { node with rank := none, layer := none }) =
        g.nodes.map fun node => { node with rank := none, layer := none } := by
    apply Array.ext
    · simp [moveToLayer]
    · intro i _ _
      simp only [moveToLayer, modifyNode, Array.getElem_map, Array.getElem_modify]
      split <;> rfl
  rw [clearLayout, hnodes]
  rfl

theorem layerOf_moveToLayer {key : NodeKey} (hkey : key < g.nodes.size) (current target : Nat)
    (other : NodeKey) :
    (g.moveToLayer key current target).layerOf other =
      if other = key then some target else g.layerOf other := by
  rw [layerOf_eq_elim, layerOf_eq_elim]
  exact elim_modifyNode g Node.layer none (fun _ => some target) (fun _ => rfl) (.inl hkey) other

theorem rankOf_moveToLayer (g : Graph α) (key : NodeKey) (current target : Nat) :
    (g.moveToLayer key current target).rankOf = g.rankOf := by
  funext other
  rw [rankOf_eq_elim, rankOf_eq_elim]
  have hsame : ∀ node : Node α, Node.rank { node with layer := some target } = node.rank :=
    fun _ => rfl
  exact elim_modifyNode_of_same g key Node.rank none hsame other

theorem getElem?_layers_moveToLayer (g : Graph α) (key : NodeKey) {current target : Nat}
    (hne : current ≠ target) (layer : Nat) :
    (g.moveToLayer key current target).layers[layer]? =
      g.layers[layer]?.map fun keys =>
        if layer = current then keys.filter fun other => other ≠ key
        else if layer = target then keys ++ [key]
        else keys := by
  simp only [moveToLayer, List.getElem?_modify]
  by_cases hcurrent : current = layer
  · subst hcurrent
    cases g.layers[current]? <;> simp [Ne.symm hne]
  · by_cases htarget : target = layer
    · subst htarget
      cases g.layers[target]? <;> simp [Ne.symm hne, hne]
    · cases g.layers[layer]? <;> simp [hcurrent, htarget, Ne.symm hcurrent, Ne.symm htarget]

theorem length_layers_moveToLayer (g : Graph α) (key : NodeKey) (current target : Nat) :
    (g.moveToLayer key current target).layers.length = g.layers.length := by
  simp [moveToLayer]

/-! ## The invariant of the pass -/

/-- The nodes of a layer that stand on the layer of their depth, by rank. -/
noncomputable def stayed (g : Graph α) (layer : Nat) : List NodeKey :=
  g.ranking.filter fun key => g.layerOf key = some layer ∧ g.depth key = layer

/-- The nodes of a list that stand on a layer which is not that of their depth. -/
noncomputable def lifted (g : Graph α) (order : List NodeKey) (layer : Nat) : List NodeKey :=
  order.filter fun key => g.layerOf key = some layer ∧ g.depth key ≠ layer

section Move

variable {key : NodeKey} {target : Nat} (hlayer : g.layerOf key = some (g.depth key))
  (hlt : g.depth key < target)

include hlayer hlt

/-- Whoever is lifted no longer stays. -/
theorem stayed_moveToLayer (current level : Nat) :
    (g.moveToLayer key current target).stayed level =
      (g.stayed level).filter fun other => other ≠ key := by
  have hdepth := depth_of_parentsOf_eq (parentsOf_of_clearLayout_eq
    (clearLayout_moveToLayer g key current target))
  rw [stayed, stayed, List.filter_filter, hdepth]
  refine List.filter_congr fun other _ => ?_
  rw [layerOf_moveToLayer (g.lt_of_layerOf hlayer)]
  by_cases hother : other = key
  · have hlevel : ¬ (target = level ∧ g.depth key = level) := by omega
    simpa [hother] using hlevel
  · simp [hother]

/-- Whoever is lifted comes last among the nodes lifted to its layer. -/
theorem lifted_moveToLayer {done : List NodeKey} (hdone : ∀ other ∈ done, other ≠ key)
    (current level : Nat) :
    (g.moveToLayer key current target).lifted (done ++ [key]) level =
      g.lifted done level ++ if level = target then [key] else [] := by
  have hdepth := depth_of_parentsOf_eq (parentsOf_of_clearLayout_eq
    (clearLayout_moveToLayer g key current target))
  have hmoved := layerOf_moveToLayer (g.lt_of_layerOf hlayer) current target
  rw [lifted, lifted, List.filter_append, hdepth]
  congr 1
  · refine List.filter_congr fun other hother => ?_
    rw [hmoved, if_neg (hdone other hother)]
  · rw [List.filter_singleton, hmoved, if_pos rfl]
    by_cases hlevel : level = target
    · simp [hlevel, Nat.ne_of_lt hlt]
    · simp [hlevel, Ne.symm hlevel]

/-- A layer that lists who stayed and then who was lifted does so after one more was lifted. -/
theorem layers_moveToLayer_eq {done : List NodeKey} (hdone : ∀ other ∈ done, other ≠ key)
    (h : ∀ layer keys, g.layers[layer]? = some keys → keys = g.stayed layer ++ g.lifted done layer)
    {layer : Nat} {keys : List NodeKey}
    (hkeys : (g.moveToLayer key (g.depth key) target).layers[layer]? = some keys) :
    keys = (g.moveToLayer key (g.depth key) target).stayed layer ++
      (g.moveToLayer key (g.depth key) target).lifted (done ++ [key]) layer := by
  rw [getElem?_layers_moveToLayer g key (Nat.ne_of_lt hlt)] at hkeys
  obtain ⟨old, hold, rfl⟩ := Option.map_eq_some_iff.1 hkeys
  rw [h layer old hold, stayed_moveToLayer hlayer hlt, lifted_moveToLayer hlayer hlt hdone]
  have hlifted : (g.lifted done layer).filter (fun other => other ≠ key) = g.lifted done layer := by
    rw [List.filter_eq_self]
    intro other hother
    simpa using hdone other (List.mem_filter.1 hother).1
  by_cases hfrom : layer = g.depth key
  · rw [if_pos hfrom, List.filter_append, hlifted, if_neg (by omega), List.append_nil]
  · -- the node did not stand on any other layer
    have hstayed : (g.stayed layer).filter (fun other => other ≠ key) = g.stayed layer := by
      rw [List.filter_eq_self]
      intro other hother
      have hplace := (List.mem_filter.1 hother).2
      rw [decide_eq_true_eq] at hplace
      have hne : other ≠ key := by
        rintro rfl
        exact hfrom hplace.2.symm
      simpa using hne
    rw [if_neg hfrom, hstayed]
    split
    · rw [List.append_assoc]
    · rw [List.append_nil]

end Move

/-- The levelled graph of `g₀` has become `g` by lifting the nodes that are done, of which so many
moved. -/
structure Lifting (g₀ g : Graph α) (done rest : List NodeKey) (moved : Nat) : Prop where
  order_eq : g₀.levelled.ranking.reverse = done ++ rest
  clearLayout_eq : g.clearLayout = g₀.clearLayout
  ranking_eq : g.ranking = g₀.levelled.ranking
  rankOf_eq : g.rankOf = g₀.levelled.rankOf
  length_layers : g.layers.length = g₀.levelled.layers.length
  layerOf_isSome : ∀ key, (g.layerOf key).isSome ↔ key ∈ g.ranking
  layerOf_rest : ∀ key ∈ rest, g.layerOf key = some (g.depth key)
  bounds : ∀ key layer, g.layerOf key = some layer →
    g.depth key ≤ layer ∧ layer < g.layers.length
  settled : ∀ key ∈ done, g.Settled key
  layers_eq : ∀ layer keys, g.layers[layer]? = some keys →
    keys = g.stayed layer ++ g.lifted done layer
  moved_eq : moved = done.countP fun key => g.layerOf key ≠ some (g.depth key)

namespace Lifting

variable {done rest : List NodeKey} {moved : Nat} {key : NodeKey}

theorem depth_eq (h : Lifting g₀ g done rest moved) : g.depth = g₀.depth :=
  depth_of_parentsOf_eq (parentsOf_of_clearLayout_eq h.clearLayout_eq)

theorem linked (hlinked : Linked g₀) (h : Lifting g₀ g done rest moved) : Linked g :=
  hlinked.of_clearLayout_eq h.clearLayout_eq

theorem mem_ranking (h : Lifting g₀ g done (key :: rest) moved) : key ∈ g.ranking := by
  rw [h.ranking_eq, ← List.mem_reverse, h.order_eq]
  exact List.mem_append_right done List.mem_cons_self

/-- What a lifted node leaves behind and where it goes. -/
theorem liftTarget?_eq_some (h : Lifting g₀ g done (key :: rest) moved) {current target : Nat}
    (hsome : g.liftTarget? key = some (current, target)) :
    current = g.depth key ∧ current < target ∧ g.lowestChildLayer key = some (target + 1) := by
  have hlayer := h.layerOf_rest key List.mem_cons_self
  cases hlow : g.lowestChildLayer key with
  | none => simp [liftTarget?, hlow] at hsome
  | some low =>
      simp only [liftTarget?, hlayer, hlow, Option.bind_eq_bind, Option.bind_some,
        Option.ite_none_right_eq_some, Option.some.injEq, Prod.mk.injEq] at hsome
      obtain ⟨hlt, rfl, rfl⟩ := hsome
      exact ⟨rfl, hlt, by congr 1; omega⟩

section Pass

variable (hlinked : Linked g₀) (hunrouted : g₀.routed = false)

include hlinked hunrouted

theorem start : Lifting g₀ g₀.levelled [] g₀.levelled.ranking.reverse 0 := by
  have hclear := clearLayout_levelled g₀
  have hdepth : g₀.levelled.depth = g₀.depth :=
    depth_of_parentsOf_eq (parentsOf_of_clearLayout_eq hclear)
  have hplaced := placed_levelled hlinked hunrouted
  have hlayer : ∀ key layer, g₀.levelled.layerOf key = some layer →
      key ∈ g₀.levelled.ranking ∧ g₀.depth key = layer := by
    intro key layer h
    obtain ⟨hsize, hhas⟩ := (layerOf_levelled_iff hlinked hunrouted key layer).1 h
    exact ⟨(mem_ranking_levelled_iff hlinked hunrouted key).2 ⟨hsize, layer, hhas⟩, hhas.depth_eq⟩
  refine { order_eq := rfl, clearLayout_eq := hclear, ranking_eq := rfl, rankOf_eq := rfl,
           length_layers := rfl, layerOf_isSome := ?_, layerOf_rest := ?_, bounds := ?_,
           settled := by simp, layers_eq := ?_, moved_eq := rfl }
  · intro key
    constructor
    · intro h
      obtain ⟨layer, h⟩ := Option.isSome_iff_exists.1 h
      exact (hlayer key layer h).1
    · intro h
      rw [layerOf_levelled_of_mem hlinked hunrouted h]
      rfl
  · intro key hkey
    rw [hdepth, layerOf_levelled_of_mem hlinked hunrouted (List.mem_reverse.1 hkey)]
  · intro key layer h
    rw [hdepth, (hlayer key layer h).2]
    exact ⟨le_rfl, hplaced.lt_length_of_layerOf h⟩
  · intro layer keys hkeys
    rw [layers_levelled_eq_filter hlinked hunrouted hkeys, lifted, List.filter_nil, List.append_nil,
      stayed, hdepth]
    refine List.filter_congr fun key hkey => ?_
    simp [layerOf_levelled_of_mem hlinked hunrouted hkey]

/-- Who comes earlier in the pass has no smaller depth. -/
theorem depth_le_of_mem_done (h : Lifting g₀ g done (key :: rest) moved) {other : NodeKey}
    (hother : other ∈ done) : g.depth key ≤ g.depth other := by
  have hpairwise := List.pairwise_reverse.2 (pairwise_ranking_levelled hlinked hunrouted)
  rw [h.order_eq] at hpairwise
  rw [h.depth_eq]
  exact (List.pairwise_append.1 hpairwise).2.2 other hother key List.mem_cons_self

theorem nodup_order (h : Lifting g₀ g done rest moved) : (done ++ rest).Nodup := by
  rw [← h.order_eq, List.nodup_reverse]
  exact nodup_ranking_levelled hlinked hunrouted

/-- Children that are placed are deeper. -/
theorem depth_lt_of_child (h : Lifting g₀ g done rest moved) {child : NodeKey}
    (hchild : child ∈ g.childrenOf key) (hplaced : child ∈ g.ranking) :
    g.depth key < g.depth child := by
  have hparent := (h.linked hlinked).mem_childrenOf_iff.1 hchild
  rw [parentsOf_of_clearLayout_eq h.clearLayout_eq] at hparent
  rw [h.ranking_eq] at hplaced
  rw [h.depth_eq]
  exact (parent_mem_ranking_levelled hlinked hunrouted hplaced hparent).2

/-- There is room below the lowest child. -/
theorem depth_lt_lowestChildLayer (h : Lifting g₀ g done rest moved) {low : Nat}
    (hlow : g.lowestChildLayer key = some low) : g.depth key < low ∧ low < g.layers.length := by
  obtain ⟨child, hchild, hlayer⟩ := (lowestChildLayer_eq_some_iff.1 hlow).1
  have hplaced := (h.layerOf_isSome child).1 (by rw [hlayer]; rfl)
  obtain ⟨hle, hlt⟩ := h.bounds child low hlayer
  exact ⟨(h.depth_lt_of_child hlinked hunrouted hchild hplaced).trans_le hle, hlt⟩

/-- A node that is not lifted is settled where it stands. -/
theorem settled_of_not_lifted (h : Lifting g₀ g done (key :: rest) moved)
    (hnone : g.liftTarget? key = none) : g.Settled key := by
  have hlayer := h.layerOf_rest key List.mem_cons_self
  refine ⟨fun _ => hlayer, fun low hlow => ?_⟩
  have hlt := (h.depth_lt_lowestChildLayer hlinked hunrouted hlow).1
  have hle : ¬ g.depth key < low - 1 := by
    simpa [liftTarget?, hlayer, hlow] using hnone
  exact ⟨by omega, by rw [hlayer]; congr 1; omega⟩

theorem step_stay (h : Lifting g₀ g done (key :: rest) moved)
    (hnone : g.liftTarget? key = none) : Lifting g₀ g (done ++ [key]) rest moved := by
  have hlayer := h.layerOf_rest key List.mem_cons_self
  refine { h with
    order_eq := by rw [h.order_eq, List.append_assoc, List.singleton_append]
    layerOf_rest := fun other hother => h.layerOf_rest other (List.mem_cons_of_mem key hother)
    settled := ?_, layers_eq := ?_, moved_eq := ?_ }
  · intro other hother
    rcases List.mem_append.1 hother with hother | hother
    · exact h.settled other hother
    · rw [List.mem_singleton.1 hother]
      exact h.settled_of_not_lifted hlinked hunrouted hnone
  · intro layer keys hkeys
    rw [h.layers_eq layer keys hkeys, lifted, lifted, List.filter_append, List.filter_singleton]
    have hstays : ¬ (g.depth key = layer ∧ g.depth key ≠ layer) := fun h => h.2 h.1
    simp [hlayer]
  · rw [h.moved_eq, List.countP_append]
    simp [hlayer]

theorem ne_of_mem_done (h : Lifting g₀ g done (key :: rest) moved) {other : NodeKey}
    (hother : other ∈ done) : other ≠ key :=
  (List.nodup_append.1 (h.nodup_order hlinked hunrouted)).2.2 other hother key List.mem_cons_self

theorem ne_of_mem_rest (h : Lifting g₀ g done (key :: rest) moved) {other : NodeKey}
    (hother : other ∈ rest) : other ≠ key := by
  rintro rfl
  have hnodup := (List.nodup_append.1 (h.nodup_order hlinked hunrouted)).2.1
  exact (List.nodup_cons.1 hnodup).1 hother

/-- The node in hand is no child of a node that is done, nor of itself: it is not deeper. -/
theorem lowestChildLayer_moveToLayer (h : Lifting g₀ g done (key :: rest) moved)
    (current target : Nat) {other : NodeKey} (hother : other = key ∨ other ∈ done) :
    (g.moveToLayer key current target).lowestChildLayer other = g.lowestChildLayer other := by
  have hkeyLayer := h.layerOf_rest key List.mem_cons_self
  have hclear := clearLayout_moveToLayer g key current target
  refine lowestChildLayer_congr (childrenOf_of_clearLayout_eq hclear) fun child hchild => ?_
  rw [layerOf_moveToLayer (g.lt_of_layerOf hkeyLayer), if_neg]
  rintro rfl
  -- children are deeper, but the pass comes to the deeper nodes first
  have hdeeper := h.depth_lt_of_child hlinked hunrouted hchild h.mem_ranking
  rcases hother with rfl | hdone
  · exact lt_irrefl _ hdeeper
  · have hle := h.depth_le_of_mem_done hlinked hunrouted hdone
    omega

/-- A lifted node is settled, and whoever was settled remains so. -/
theorem settled_moveToLayer (h : Lifting g₀ g done (key :: rest) moved) (current : Nat)
    {target : Nat} (hlow : g.lowestChildLayer key = some (target + 1)) :
    ∀ other ∈ done ++ [key], (g.moveToLayer key current target).Settled other := by
  have hkeyLayer := h.layerOf_rest key List.mem_cons_self
  have hlayer := layerOf_moveToLayer (g.lt_of_layerOf hkeyLayer) current target
  have hdepth := depth_of_parentsOf_eq (parentsOf_of_clearLayout_eq
    (clearLayout_moveToLayer g key current target))
  intro other hother
  rcases List.mem_append.1 hother with hdone | hkey
  · rw [Settled, h.lowestChildLayer_moveToLayer hlinked hunrouted current target (.inr hdone),
      hlayer, if_neg (h.ne_of_mem_done hlinked hunrouted hdone), hdepth]
    exact h.settled other hdone
  · obtain rfl := List.mem_singleton.1 hkey
    rw [Settled, h.lowestChildLayer_moveToLayer hlinked hunrouted current target (.inl rfl), hlayer,
      if_pos rfl, hlow]
    refine ⟨by simp, fun low heq => ?_⟩
    obtain rfl : target + 1 = low := by simpa using heq
    exact ⟨Nat.succ_pos target, rfl⟩

theorem step_move (h : Lifting g₀ g done (key :: rest) moved) {current target : Nat}
    (hsome : g.liftTarget? key = some (current, target)) :
    Lifting g₀ (g.moveToLayer key current target) (done ++ [key]) rest (moved + 1) := by
  obtain ⟨rfl, hlt, hlow⟩ := h.liftTarget?_eq_some hsome
  have hkeyLayer := h.layerOf_rest key List.mem_cons_self
  have hclear := clearLayout_moveToLayer g key (g.depth key) target
  have hlayer := layerOf_moveToLayer (g.lt_of_layerOf hkeyLayer) (g.depth key) target
  have hdepth := depth_of_parentsOf_eq (parentsOf_of_clearLayout_eq hclear)
  have hlength := length_layers_moveToLayer g key (g.depth key) target
  have hneDone : ∀ other ∈ done, other ≠ key :=
    fun other hother => h.ne_of_mem_done hlinked hunrouted hother
  refine { order_eq := by rw [h.order_eq, List.append_assoc, List.singleton_append]
           clearLayout_eq := hclear.trans h.clearLayout_eq
           ranking_eq := h.ranking_eq
           rankOf_eq := (rankOf_moveToLayer g key (g.depth key) target).trans h.rankOf_eq
           length_layers := hlength.trans h.length_layers
           layerOf_isSome := ?_, layerOf_rest := ?_, bounds := ?_
           settled := h.settled_moveToLayer hlinked hunrouted (g.depth key) hlow
           layers_eq := fun layer keys hkeys =>
             layers_moveToLayer_eq hkeyLayer hlt hneDone h.layers_eq hkeys
           moved_eq := ?_ }
  · intro other
    rw [hlayer]
    show _ ↔ other ∈ g.ranking
    split
    · rename_i hother
      simpa [hother] using h.mem_ranking
    · exact h.layerOf_isSome other
  · intro other hother
    rw [hlayer, if_neg (h.ne_of_mem_rest hlinked hunrouted hother), hdepth]
    exact h.layerOf_rest other (List.mem_cons_of_mem key hother)
  · intro other layer hother
    rw [hdepth, hlength]
    rw [hlayer] at hother
    split at hother
    · -- the new layer lies above the depth and below a layer that there is
      rename_i heq
      obtain rfl : target = layer := by simpa using hother
      have hroom := h.depth_lt_lowestChildLayer hlinked hunrouted hlow
      exact ⟨by rw [heq]; omega, by omega⟩
    · exact h.bounds other layer hother
  · have hkept : done.countP (fun other => (g.moveToLayer key (g.depth key) target).layerOf other ≠
        some (g.depth other)) = done.countP fun other => g.layerOf other ≠ some (g.depth other) := by
      refine List.countP_congr fun other hother => ?_
      rw [hlayer, if_neg (hneDone other hother)]
    rw [h.moved_eq, List.countP_append, List.countP_singleton, hlayer, if_pos rfl, hdepth, hkept,
      if_pos (by simp; omega)]

/-- One step of the pass keeps the invariant. -/
theorem step (h : Lifting g₀ g done (key :: rest) moved) :
    Lifting g₀ (lift (g, moved) key).1 (done ++ [key]) rest (lift (g, moved) key).2 := by
  unfold lift
  cases htarget : g.liftTarget? key with
  | none => exact h.step_stay hlinked hunrouted htarget
  | some places => exact h.step_move hlinked hunrouted htarget

/-- A whole pass keeps the invariant. -/
theorem run (h : Lifting g₀ g done rest moved) :
    Lifting g₀ (rest.foldl lift (g, moved)).1 (done ++ rest) [] (rest.foldl lift (g, moved)).2 := by
  induction rest generalizing g done moved with
  | nil => rwa [List.append_nil]
  | cons key rest ih =>
      have := ih (h.step hlinked hunrouted)
      rwa [List.append_assoc] at this

/-- **Compaction.**  The pass over a levelled graph ends with nothing left to do. -/
theorem compact : Lifting g₀ g₀.levelled.compact.1 g₀.levelled.ranking.reverse []
    g₀.levelled.compact.2 :=
  (start hlinked hunrouted).run hlinked hunrouted

end Pass

end Lifting

end JobGraph.Graph
