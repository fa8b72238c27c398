import JobGraph.Event.Json
import JobGraph.Job.Json
import JobGraph.Polling.Client

/-!
# Recordings

A job list and the events of a finished run.  Events are kept in the order of their ids, those
without an id first; events of one id keep the order in which they were recorded.
-/

namespace JobGraph

/-- A recorded run. -/
structure Recording where
  jobs : List JobEntry
  events : List Event
  deriving DecidableEq

namespace Recording

/-- What recorded events are ordered by: the id, or the least id there can be. -/
def sortKey (event : Event) : Int :=
  event.id.getD (-Decimal.int64Bound)

/-- Whether an event comes no later than another one. -/
def precedes (first second : Event) : Bool :=
  sortKey first ≤ sortKey second

/-- The recording of a job list and of events in any order. -/
def new (jobs : List JobEntry) (events : List Event) : Recording :=
  ⟨jobs, events.mergeSort precedes⟩

/-- The recording of two texts.  The job list is read first. -/
def read (jobs events : String) : Except ClientError Recording :=
  match JobEntry.readList? jobs, Event.readList? events with
  | some jobs, some events => .ok (.new jobs events)
  | _, _ => .error .malformed

/-- The recording of two files; without an events file there are no events. -/
def ofFiles (jobs : Except FileError String) (events : Option (Except FileError String)) :
    Except ClientError Recording :=
  match jobs, events with
  | .error error, _ => .error (.file error)
  | .ok jobs, none => read jobs "[]"
  | .ok _, some (.error error) => .error (.file error)
  | .ok jobs, some (.ok events) => read jobs events

/-- The recorded events after an id; those without an id are among them always. -/
def eventsAfter (recording : Recording) (after : Int) : List Event :=
  recording.events.filter fun event => event.id.all fun id => after < id

/-- The client that plays a recording. -/
def client : Client Recording where
  fetchJobs recording _ := (.ok recording.jobs, recording)
  fetchEvents recording _ after := (.ok (recording.eventsAfter after), recording)

end Recording

end JobGraph
