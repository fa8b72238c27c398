import JobGraph.Job.Json
import JobGraph.Workflow.Basic

/-!
# Applying events

Events are applied in the order of their ids.  An event whose id is not above that of the last one
applied is a duplicate; an event that cannot be applied is reported and leaves the workflow as it
was.  A batch may be limited to a number of job events, and the rest of it is put off.
-/

namespace JobGraph

/-- What became of an event by itself. -/
inductive EventOutcome where
  | applied (kind : EventKind)
  | duplicate
  deriving DecidableEq, Repr

/-- What became of an event in a batch. -/
inductive EventFate where
  | applied (kind : EventKind)
  | duplicate
  /-- The limit of the batch was reached before. -/
  | deferred
  | rejected (error : WorkflowError)
  deriving DecidableEq, Repr

/-- The account of a batch. -/
structure BatchReport where
  applied : Nat
  /-- How many of the events applied were about a job. -/
  jobEvents : Nat
  duplicates : Nat
  deferred : Nat
  /-- The faults, each with the id of its event. -/
  errors : List (Option Int × WorkflowError)
  deriving DecidableEq, Repr

namespace BatchReport

/-- The account of no events. -/
def empty : BatchReport :=
  ⟨0, 0, 0, 0, []⟩

/-- Enters what became of one more event. -/
def enter (report : BatchReport) (id : Option Int) : EventFate → BatchReport
  | .applied kind =>
      { report with
        applied := report.applied + 1
        jobEvents := report.jobEvents + if kind.isJobEvent then 1 else 0 }
  | .duplicate => { report with duplicates := report.duplicates + 1 }
  | .deferred => { report with deferred := report.deferred + 1 }
  | .rejected error => { report with errors := report.errors ++ [(id, error)] }

/-- Whether no event was rejected. -/
def isClean (report : BatchReport) : Bool :=
  report.errors.isEmpty

end BatchReport

namespace Workflow

/-! ## Single events -/

/-- The update of a job that the payload of an event carries.  A name beside the job takes the place
of the name in it. -/
def jobUpdate (payload : Json) : Except WorkflowError Job :=
  match payload.get? "job" with
  | none => .error .missingJobEntry
  | some value =>
      match Job.decode? value.document with
      | none => .error .malformedJob
      | some job =>
          match (payload.get? "name").bind Json.text? with
          | some name => .ok { job with name }
          | none => .ok job

/-- The job after a change of that kind.  Progress changes the status only when the job is said to
be over. -/
def changeStatus (change : JobChange) (job : Job) : Job :=
  match change with
  | .started => { job with status := .running }
  | .progress =>
      if job.saysComplete then
        { job with status := if job.saysSuccessful then .complete else .failed }
      else job
  | .complete => { job with status := .complete }
  | .failed => { job with status := .failed }

/-- Applies an event about a job. -/
def applyJobChange (w : Workflow) (id : Int) (change : JobChange) (payload : Json) :
    Reaction Workflow (Except WorkflowError EventOutcome) :=
  match jobUpdate payload >>= w.mergeUpdate with
  | .error error => ⟨w, [], .error error⟩
  | .ok (merged, key) =>
      let changed := { merged.modifyJob key (changeStatus change) with lastEvent := id }
      match changed.job? key with
      | none => ⟨merged, [], .error .missingJobReference⟩
      | some job =>
          ⟨changed, [.jobChanged (.of job) job.status id change], .ok (.applied (.job change))⟩

/-- Applies an event about the workflow as a whole. -/
def applyProgress (w : Workflow) (id : Int) (payload : Json) :
    Reaction Workflow (Except WorkflowError EventOutcome) :=
  match workflowProgress? payload with
  | none => ⟨w, [], .error .missingProgress⟩
  | some progress =>
      let set := w.setProgress progress
      ⟨{ set.state with lastEvent := id }, set.notices, .ok (.applied .workflowProgress)⟩

/-- Applies a single event. -/
def applyEvent (w : Workflow) (event : Event) :
    Reaction Workflow (Except WorkflowError EventOutcome) :=
  match event.id, event.kindName, event.payload with
  | some id, some kindName, some payload =>
      if id ≤ w.lastEvent then ⟨w, [], .ok .duplicate⟩
      else match EventKind.ofName? kindName with
        | none => ⟨w, [], .error (.unsupportedEventType kindName)⟩
        | some (.job change) => w.applyJobChange id change payload
        | some .workflowProgress => w.applyProgress id payload
  | _, _, _ => ⟨w, [], .error .incompleteEvent⟩

/-! ## Batches -/

/-- Whether an event is a duplicate. -/
def isDuplicate (w : Workflow) (event : Event) : Bool :=
  event.id.any fun id => id ≤ w.lastEvent

/-- Whether a limit is reached. -/
def limitReached (limit : Option Nat) (jobEvents : Nat) : Bool :=
  limit.any fun most => most ≤ jobEvents

/-- Takes one event of a batch in which so many job events were applied before. -/
def takeEvent (w : Workflow) (limit : Option Nat) (jobEvents : Nat) (event : Event) :
    Reaction Workflow EventFate :=
  let arrived : Notice := .eventArrived event.id event.payload
  if !event.isWellFormed then ⟨w, [arrived], .rejected .incompleteEvent⟩
  else if w.isDuplicate event then ⟨w, [arrived], .duplicate⟩
  else if limitReached limit jobEvents then ⟨w, [arrived], .deferred⟩
  else
    let applied := w.applyEvent event
    let fate := match applied.answer with
      | .ok (.applied kind) => EventFate.applied kind
      | .ok .duplicate => .duplicate
      | .error error => .rejected error
    ⟨applied.state, arrived :: applied.notices, fate⟩

/-- Takes further events of a batch of which the report tells so far. -/
def takeEvents (limit : Option Nat) :
    Workflow → BatchReport → List Event → Reaction Workflow BatchReport
  | w, report, [] => ⟨w, [], report⟩
  | w, report, event :: rest =>
      let taken := w.takeEvent limit report.jobEvents event
      let others := takeEvents limit taken.state (report.enter event.id taken.answer) rest
      ⟨others.state, taken.notices ++ others.notices, others.answer⟩

/-- Applies a batch of events, with at most so many job events. -/
def applyEvents (w : Workflow) (events : List Event) (limit : Option Nat) :
    Reaction Workflow BatchReport :=
  takeEvents limit w .empty events

end Workflow

end JobGraph
