import JobGraph.Graph.Basic
import JobGraph.Graph.Error

/-!
# Order inside layers

Sweeps that bring every node near the mean place of its neighbours, and the number of crossings of
a drawing.  Means are compared as exact fractions.
-/

namespace JobGraph

/-- The mean of some natural numbers, as their sum and their count. -/
structure Mean where
  total : Nat
  count : Nat
  deriving DecidableEq, Repr

namespace Mean

/-- The mean of a list; an empty one has none. -/
def of? (values : List Nat) : Option Mean :=
  if values.isEmpty then none else some ⟨values.foldr (· + ·) 0, values.length⟩

/-- A single number as a mean. -/
def single (value : Nat) : Mean :=
  ⟨value, 1⟩

/-- Whether a mean is at most another one. -/
def le (first second : Mean) : Bool :=
  first.total * second.count ≤ second.total * first.count

end Mean

namespace Graph

variable {α : Type}

/-! ## Places -/

/-- The place of a node inside its layer. -/
def placeIn (layers : List (List NodeKey)) (key : NodeKey) : Option Nat :=
  layers.findSome? fun layer => layer.idxOf? key

/-! ## Sweeps -/

/-- Where a node is drawn to: the mean place of its placed neighbours, or else its own place. -/
def weight (layers : List (List NodeKey)) (neighbours : NodeKey → List NodeKey) (key : NodeKey) :
    Mean :=
  (Mean.of? ((neighbours key).filterMap (placeIn layers))).getD
    (.single ((placeIn layers key).getD 0))

/-- Sorts one layer by weight; nodes of equal weight keep their order. -/
def orderLayer (neighbours : NodeKey → List NodeKey) (layers : List (List NodeKey))
    (layer : Nat) : List (List NodeKey) :=
  layers.modify layer fun keys =>
    keys.mergeSort fun first second =>
      (weight layers neighbours first).le (weight layers neighbours second)

/-- Orders all layers but the lowest by their parents, upward. -/
def sweepUp (g : Graph α) (layers : List (List NodeKey)) : List (List NodeKey) :=
  (List.range' 1 (layers.length - 1)).foldl (orderLayer g.parentsOf) layers

/-- Orders all layers but the top one by their children, downward. -/
def sweepDown (g : Graph α) (layers : List (List NodeKey)) : List (List NodeKey) :=
  (List.range (layers.length - 1)).reverse.foldl (orderLayer g.childrenOf) layers

/-- One sweep: upward in even rounds, downward in odd ones. -/
def sweep (g : Graph α) (layers : List (List NodeKey)) (round : Nat) : List (List NodeKey) :=
  if round % 2 = 0 then g.sweepUp layers else g.sweepDown layers

/-- Orders the layers of a sorted graph by a number of sweeps. -/
def orderLayers (g : Graph α) (sweeps : Nat) : Graph α × Except GraphError Unit :=
  if !g.sorted then (g, .error .notSorted)
  else if g.layers.length < 2 then (g, .ok ())
  else ({ g with layers := (List.range sweeps).foldl g.sweep g.layers }, .ok ())

/-! ## Crossings -/

/-- The edges from a layer to the one below it, as the places of their ends. -/
def segments (g : Graph α) (layer : Nat) : List (Nat × Nat) :=
  (g.layers[layer]?.getD []).flatMap fun dependent =>
    ((g.parentsOf dependent).filter fun parent => g.layerOf parent = some (layer - 1)).map
      fun parent => ((placeIn g.layers dependent).getD 0, (placeIn g.layers parent).getD 0)

/-- Whether two edges between the same two layers cross. -/
def crosses (first second : Nat × Nat) : Bool :=
  (first.1 < second.1 && second.2 < first.2) || (second.1 < first.1 && first.2 < second.2)

/-- The number of crossing pairs in a list of edges. -/
def crossingPairs : List (Nat × Nat) → Nat
  | [] => 0
  | first :: rest => rest.countP (crosses first) + crossingPairs rest

/-- The number of crossings between neighbouring layers of a sorted graph. -/
def crossings (g : Graph α) : Except GraphError Nat :=
  if !g.sorted then .error .notSorted
  else .ok (((List.range' 1 (g.layers.length - 1)).map fun layer =>
    crossingPairs (g.segments layer)).foldr (· + ·) 0)

end Graph

end JobGraph
