import JobGraph.Graph.Edges
import JobGraph.Graph.Error

/-!
# Routing of long edges

An edge that drops two or more layers is split into a chain with one waypoint on every layer it
crosses, so that every edge of the drawing joins neighbouring layers.  The waypoint of a layer is
named for the two ends of the edge and the layer, with a number behind it when that id is taken.
-/

namespace JobGraph.Graph

variable {α : Type}

/-- The id of a waypoint when it is free. -/
def waypointId (dependentId parentId : String) (layer : Nat) : String :=
  dependentId ++ ":" ++ parentId ++ ":" ++ toString layer

/-- An id with a number behind it. -/
def numberedId (base : String) (number : Nat) : String :=
  base ++ "#" ++ toString number

/-- An id that no node has: the base itself, or the base with the least number from two on that is
free.  Of one more candidates than there are ids, one is free. -/
def freeId (g : Graph α) (base : String) : String :=
  if g.idIndex.contains base then
    let candidates := (List.range (g.nodes.size + 1)).map fun n => numberedId base (n + 2)
    (candidates.find? fun id => !g.idIndex.contains id).getD base
  else base

/-- Puts a waypoint on a layer and hangs it below the last node of a chain: the graph and the new
end of the chain. -/
def extendChain (source target : NodeKey) (state : Graph α × NodeKey) (layer : Nat) :
    Graph α × NodeKey :=
  let g := state.1
  let key := g.nextKey
  let id := g.freeId (waypointId (g.idOf source) (g.idOf target) layer)
  let g := g.addWaypoint id source target
  let g := { g.modifyNode key fun node => { node with layer := some layer } with
    layers := g.layers.modify layer fun keys => keys ++ [key] }
  (g.addEdge state.2 key, key)

/-- The layers strictly between two layers, the highest first. -/
def layersBetween (high low : Nat) : List Nat :=
  (List.range' (low + 1) (high - low - 1)).reverse

/-- The layers an edge crosses: none unless both ends have a layer and the edge drops two or more. -/
def crossedLayers (g : Graph α) (dependent parent : NodeKey) : List Nat :=
  match g.layerOf dependent, g.layerOf parent with
  | some high, some low => layersBetween high low
  | _, _ => []

/-- Splits one edge into a chain if it crosses layers, and adds the number of waypoints. -/
def splitEdge (dependent : NodeKey) (state : Graph α × Nat) (parent : NodeKey) : Graph α × Nat :=
  let crossed := state.1.crossedLayers dependent parent
  if crossed.isEmpty then state
  else
    let bare := state.1.removeEdge dependent parent
    let (g, last) := crossed.foldl (extendChain dependent parent) (bare, dependent)
    (g.addEdge last parent, state.2 + crossed.length)

/-- Splits the edges of one node to its parents. -/
def splitEdgesOf (state : Graph α × Nat) (dependent : NodeKey) : Graph α × Nat :=
  (state.1.parentsOf dependent).foldl (splitEdge dependent) state

/-- Splits the edges of the nodes of one layer. -/
def splitEdgesOfLayer (state : Graph α × Nat) (layer : Nat) : Graph α × Nat :=
  (state.1.layers[layer]?.getD []).foldl splitEdgesOf state

/-- Splits all long edges of a sorted graph, from the third layer up, and counts the waypoints.  A
graph is routed once only. -/
def routeLongEdges (g : Graph α) : Graph α × Except GraphError Nat :=
  if !g.sorted then (g, .error .notSorted)
  else if g.routed then (g, .error .routedTwice)
  else
    let upper := List.range' 2 (g.layers.length - 2)
    let (routed, count) := upper.foldl splitEdgesOfLayer ({ g with routed := true }, 0)
    (routed, .ok count)

end JobGraph.Graph
