import JobGraph.Decimal.Reading
import JobGraph.Json.Basic
import JobGraph.Text.Blank

/-!
# Events

What a server reports while a workflow runs.  A server is not trusted to send complete events, so
every part of an event may be missing until the event is applied.
-/

namespace JobGraph

/-- What an event about a job reports. -/
inductive JobChange where
  | started
  | progress
  | complete
  | failed
  deriving DecidableEq, Repr

/-- The kinds of events. -/
inductive EventKind where
  | job (change : JobChange)
  /-- How far the workflow as a whole has come. -/
  | workflowProgress
  deriving DecidableEq, Repr

namespace EventKind

/-- The name of a kind. -/
def name : EventKind → String
  | .job .started => "JOB_STARTED"
  | .job .progress => "JOB_PROGRESS"
  | .job .complete => "JOB_FINISHED"
  | .job .failed => "JOB_FAILED"
  | .workflowProgress => "WORKFLOW_PROGRESS"

/-- The kind of a name. -/
def ofName? : String → Option EventKind
  | "JOB_STARTED" => some (.job .started)
  | "JOB_PROGRESS" => some (.job .progress)
  | "JOB_FINISHED" => some (.job .complete)
  | "JOB_FAILED" => some (.job .failed)
  | "WORKFLOW_PROGRESS" => some .workflowProgress
  | _ => none

@[simp]
theorem ofName?_name (kind : EventKind) : ofName? kind.name = some kind := by
  rcases kind with change | _
  · cases change <;> rfl
  · rfl

/-- Whether events of this kind are about a single job. -/
def isJobEvent : EventKind → Bool
  | .job _ => true
  | .workflowProgress => false

end EventKind

/-- An event as it arrives. -/
structure Event where
  id : Option Int
  timestamp : Option Int
  kindName : Option String
  payload : Option Json
  deriving DecidableEq, Inhabited

namespace Event

/-- An event of a kind. -/
def new (id : Int) (kind : EventKind) (payload : Json) : Event :=
  ⟨some id, none, some kind.name, some payload⟩

/-- Whether id, kind and payload are there.  The id zero, the empty name and a null payload count as
missing. -/
def isWellFormed (event : Event) : Bool :=
  (event.id.any fun id => id != 0) && (event.kindName.any fun name => !name.isEmpty) &&
    event.payload.any fun payload => !payload.isNull

end Event

/-! ## Progress -/

/-- A whole percentage: the nearest one, a half rounded up, within its two ends.  What is not a
number counts as zero. -/
def percentOfFloat (x : Float) : Nat :=
  if x < 0 then 0
  else if 100 < x then 100
  else x.round.toUInt8.toNat

/-- The percentage in the payload of a progress event, given as a number or in digits. -/
def workflowProgress? (payload : Json) : Option Nat := do
  match ← payload.get? "workflowProgress" with
  | .integer n => some (max 0 (min n 100)).toNat
  | .double x => some (percentOfFloat x)
  | .string digits => (Decimal.readFloat? (Text.trim digits.toList)).map percentOfFloat
  | _ => none

end JobGraph
