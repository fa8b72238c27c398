import JobGraph.Json.Fields

/-!
# Jobs

A job of a monitored workflow.  Only the parts that the library reasons about have fields of their
own; whatever else a server says about a job is kept as it is.
-/

namespace JobGraph

/-- How far a job has come. -/
inductive JobStatus where
  /-- No event has been seen yet. -/
  | pending
  | running
  | complete
  | failed
  deriving DecidableEq, Repr, Inhabited

namespace JobStatus

/-- The name of a status. -/
def name : JobStatus → String
  | .pending => "PENDING"
  | .running => "RUNNING"
  | .complete => "COMPLETE"
  | .failed => "FAILED"

/-- The status of a name. -/
def ofName? : String → Option JobStatus
  | "PENDING" => some .pending
  | "RUNNING" => some .running
  | "COMPLETE" => some .complete
  | "FAILED" => some .failed
  | _ => none

@[simp]
theorem ofName?_name (status : JobStatus) : ofName? status.name = some status := by
  cases status <;> rfl

/-- Whether the job has stopped, successfully or not. -/
def isFinished : JobStatus → Bool
  | .complete | .failed => true
  | .pending | .running => false

end JobStatus

/-- A job. -/
structure Job where
  name : String
  /-- The id given to the job when it runs. -/
  id : Option String
  status : JobStatus
  /-- The names of the jobs it depends on. -/
  parentNames : List String
  /-- The names of the jobs depending on it. -/
  childNames : List String
  /-- The rank in the layout of its workflow. -/
  index : Option Nat
  isSelected : Bool
  isHovered : Bool
  /-- What else is said about the job. -/
  extra : Json.Fields
  deriving DecidableEq

namespace Job

/-- A job about which nothing is known. -/
def blank : Job :=
  { name := "", id := none, status := .pending, parentNames := [], childNames := [],
    index := none, isSelected := false, isHovered := false, extra := .empty }

instance : Inhabited Job := ⟨blank⟩

/-- The fields that are dropped when a job is loaded: they are large, and events bring them anew. -/
def bulkyFields : List String :=
  ["mapReduceJobState", "counterGroupMap", "configuration", "metrics"]

/-- The job without its bulky fields. -/
def strip (job : Job) : Job :=
  { job with extra := bulkyFields.foldl Json.Fields.erase job.extra }

/-- Sets a field that is none of the job's own. -/
def setField (job : Job) (name : String) (value : Json) : Job :=
  { job with extra := job.extra.insert name value }

/-- The update where it says something, or else the value that was there. -/
def overwriteList (old update : List String) : List String :=
  if update.isEmpty then old else update

/-- Overwrites a job with what an update says.  An empty name or list, a missing id and the status
of a job that has not begun say nothing; other fields are overwritten one by one. -/
def merge (job update : Job) : Job :=
  { job with
    name := if update.name.isEmpty then job.name else update.name
    id := update.id.or job.id
    status := if update.status = .pending then job.status else update.status
    parentNames := overwriteList job.parentNames update.parentNames
    childNames := overwriteList job.childNames update.childNames
    extra := job.extra.overwrite update.extra }

/-! ## Flags -/

/-- Whether a field is set, as a truth value or as the word for it. -/
def isSet (job : Job) (name : String) : Bool :=
  match job.extra.get? name with
  | some (.bool value) => value
  | some (.string word) => word == "true"
  | _ => false

/-- Whether a server said that the job is over. -/
def saysComplete (job : Job) : Bool :=
  job.isSet "isComplete"

/-- Whether a server said that the job succeeded. -/
def saysSuccessful (job : Job) : Bool :=
  job.isSet "isSuccessful"

end Job

/-- An entry of a job list: a job and the names of the jobs that depend on it. -/
structure JobEntry where
  name : String
  job : Job
  successorNames : List String
  deriving DecidableEq

/-- What names a job: its name, its id or both.  The name takes precedence. -/
structure JobRef where
  name : Option String
  id : Option String
  deriving DecidableEq, Repr

namespace JobRef

/-- A reference to a job by its name, if it has one, and its id. -/
def of (job : Job) : JobRef :=
  ⟨if job.name.isEmpty then none else some job.name, job.id⟩

/-- How a reference is shown. -/
def shown (ref : JobRef) : String :=
  (ref.name.or ref.id).getD "<unnamed>"

end JobRef

end JobGraph
