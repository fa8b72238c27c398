import JobGraph.Graph.Error
import JobGraph.Json.Decoding

/-!
# Errors of graphs as JSON

The form in which an error of a graph is handed to a view: the name of its kind, alone or as the
name of the one member that holds the details.
-/

namespace JobGraph.GraphError

open Json (Document)

/-- The error as JSON. -/
def toJson : GraphError → Json
  | .cycle ids => .object [("CycleDetected", .object [("nodes", .ofTexts ids)])]
  | .notSorted => .string "NotSorted"
  | .invalidState reason => .object [("InvalidState", .string reason)]

/-- Reads an error.  The details of a cycle are an object. -/
def decode? (document : Document) : Option GraphError :=
  match document with
  | .object [("CycleDetected", .object members)] => do
      match ← Document.objectFields? ["nodes"] members with
      | [ids] => some (.cycle (← Document.required (Document.list? Document.text?) ids))
      | _ => none
  | .object [("InvalidState", .string reason)] => some (.invalidState reason)
  | _ => if document.constant? = some "NotSorted" then some .notSorted else none

end JobGraph.GraphError
