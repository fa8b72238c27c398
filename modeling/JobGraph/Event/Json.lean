import JobGraph.Event.Basic
import JobGraph.Json.Decoding

/-!
# Events as JSON

An event names its kind in a plain string, which need not be the name of any; a kind on its own is
read as a constant.
-/

namespace JobGraph

open Json (Document)

/-- Reads the name of a kind. -/
def EventKind.decode? (document : Document) : Option EventKind :=
  document.constant?.bind EventKind.ofName?

namespace Event

/-- An event as an object of the parts it has. -/
def toJson (event : Event) : Json :=
  .object
    (Json.optional "id" Json.integer event.id ++
      Json.optional "timestamp" Json.integer event.timestamp ++
      Json.optional "type" Json.string event.kindName ++
      Json.optional "payload" (fun payload => payload) event.payload)

/-- Reads an event; any part may be missing or null. -/
def decode? (document : Document) : Option Event := do
  match ← document.fields? ["id", "timestamp", "type", "payload"] with
  | [id, timestamp, kindName, payload] =>
      some
        { id := ← Document.nullable Document.integer64? id
          timestamp := ← Document.nullable Document.integer64? timestamp
          kindName := ← Document.nullable Document.text? kindName
          payload := ← Document.nullable Document.value? payload }
  | _ => none

/-- The event of a text. -/
def read? (text : String) : Option Event :=
  (Document.read? text).bind decode?

/-- The events of a text. -/
def readList? (text : String) : Option (List Event) :=
  (Document.read? text).bind (Document.list? decode?)

end Event

end JobGraph
