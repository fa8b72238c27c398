import JobGraph.Job.Basic
import JobGraph.Json.Decoding

/-!
# Jobs as JSON

The fields of a job share one object with everything else that is said about it.  Where a view has
selected or hovered over a job is its own affair and is not written.
-/

namespace JobGraph

open Json (Document)

/-! ## Jobs -/

/-- The name of a status. -/
def JobStatus.decode? (document : Document) : Option JobStatus :=
  document.constant?.bind JobStatus.ofName?

namespace Job

/-- The names of a job's own fields. -/
def fieldNames : List String :=
  ["name", "id", "status", "parentNames", "childNames", "index"]

/-- The members of the object that a job is written as. -/
def members (job : Job) : List (String × Json) :=
  [("name", .string job.name)] ++
    Json.optional "id" Json.string job.id ++
    [("status", .string job.status.name),
     ("parentNames", .ofTexts job.parentNames),
     ("childNames", .ofTexts job.childNames)] ++
    Json.optional "index" Json.ofNat job.index ++
    job.extra.entries

/-- A job as an object. -/
def toJson (job : Job) : Json :=
  .object job.members

/-- A job as a payload: an object whose members stand in ascending order of their names. -/
def payload (job : Job) : Json :=
  .object (Json.Fields.ofList job.members).entries

/-- The members of an object that are no fields of a job. -/
def otherMembers (members : List (String × Document)) : List (String × Document) :=
  members.filter fun member => !fieldNames.contains member.1

/-- Reads a job out of an object.  Any of its fields may be missing. -/
def decode? : Document → Option Job
  | .object members => do
      match ← Document.objectFields? fieldNames members with
      | [name, id, status, parentNames, childNames, index] =>
          let texts? := Document.list? Document.text?
          some
            { name := ← Document.withDefault "" Document.text? name
              id := ← Document.nullable Document.text? id
              status := ← Document.withDefault .pending JobStatus.decode? status
              parentNames := ← Document.withDefault [] texts? parentNames
              childNames := ← Document.withDefault [] texts? childNames
              index := ← Document.nullable Document.natural64? index
              isSelected := false
              isHovered := false
              extra := .ofList (← Document.memberValues? (otherMembers members)) }
      | _ => none
  | _ => none

/-- The job of a text. -/
def read? (text : String) : Option Job :=
  (Document.read? text).bind decode?

end Job

/-! ## Entries and references -/

/-- An entry as an object. -/
def JobEntry.toJson (entry : JobEntry) : Json :=
  .object
    [("name", .string entry.name), ("job", entry.job.toJson),
     ("successorNames", .ofTexts entry.successorNames)]

/-- Reads an entry; only its name must be there. -/
def JobEntry.decode? (document : Document) : Option JobEntry := do
  match ← document.fields? ["name", "job", "successorNames"] with
  | [name, job, successorNames] =>
      some
        { name := ← Document.required Document.text? name
          job := ← Document.withDefault .blank Job.decode? job
          successorNames :=
            ← Document.withDefault [] (Document.list? Document.text?) successorNames }
  | _ => none

/-- The job list of a text. -/
def JobEntry.readList? (text : String) : Option (List JobEntry) :=
  (Document.read? text).bind (Document.list? JobEntry.decode?)

/-- A reference as an object. -/
def JobRef.toJson (ref : JobRef) : Json :=
  .object (Json.optional "name" Json.string ref.name ++ Json.optional "id" Json.string ref.id)

/-- Reads a reference. -/
def JobRef.decode? (document : Document) : Option JobRef := do
  match ← document.fields? ["name", "id"] with
  | [name, id] =>
      some
        { name := ← Document.nullable Document.text? name
          id := ← Document.nullable Document.text? id }
  | _ => none

end JobGraph
