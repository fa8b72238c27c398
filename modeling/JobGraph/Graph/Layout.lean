import JobGraph.Graph.Layering
import JobGraph.Graph.Matrix
import JobGraph.Graph.Ordering
import JobGraph.Graph.Routing

/-!
# Layouts

The whole layout of a graph: layering, then routing and ordering as far as they are asked for.
-/

namespace JobGraph

/-- How a graph is laid out. -/
structure LayoutOptions where
  cyclePolicy : CyclePolicy
  /-- Whether long edges are split. -/
  routed : Bool
  /-- The number of sweeps that order the layers. -/
  sweeps : Nat
  deriving DecidableEq, Repr

/-- Leave cycles out, split long edges and keep the order of the layering. -/
def LayoutOptions.default : LayoutOptions :=
  ⟨.lenient, true, 0⟩

instance : Inhabited LayoutOptions := ⟨.default⟩

namespace Graph

variable {α : Type}

/-- Lays a graph out.  What fails is the first step that fails. -/
def layOut (g : Graph α) (options : LayoutOptions) :
    Graph α × Except GraphError LayeringReport :=
  match g.assignLayers options.cyclePolicy with
  | (g, .error error) => (g, .error error)
  | (g, .ok report) =>
      match if options.routed then g.routeLongEdges else (g, .ok 0) with
      | (g, .error error) => (g, .error error)
      | (g, .ok _) =>
          match if 0 < options.sweeps then g.orderLayers options.sweeps else (g, .ok ()) with
          | (g, .error error) => (g, .error error)
          | (g, .ok _) => (g, .ok report)

end Graph

end JobGraph
