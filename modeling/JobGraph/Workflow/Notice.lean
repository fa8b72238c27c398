import JobGraph.Event.Basic
import JobGraph.Job.Basic

/-!
# Notices

What the listeners of a workflow are told, and which listener hears what.
-/

namespace JobGraph

/-- A change in a workflow or in its polling. -/
inductive Notice where
  /-- A job list is about to be fetched or laid out. -/
  | loadingJobs
  | jobsLoaded (jobCount waypointCount : Nat)
  | loadFailed (message : String)
  | pollingStarted
  | pollingStopped
  /-- An event arrived and was not looked at yet. -/
  | eventArrived (id : Option Int) (payload : Option Json)
  /-- A batch of events was fetched and applied. -/
  | eventsPolled (received applied : Nat)
  | pollFailed (message : String) (failures : Nat)
  | progressChanged (progress : Nat)
  | workflowComplete
  /-- An event about a job was applied. -/
  | jobChanged (job : JobRef) (status : JobStatus) (event : Int) (change : JobChange)
  | jobSelected (job previous : Option JobRef)
  | jobHovered (job previous : Option JobRef)
  deriving DecidableEq

namespace Notice

/-- The name by which listeners ask for a notice. -/
def name : Notice → String
  | .loadingJobs => "loadingJobs"
  | .jobsLoaded _ _ => "jobsLoaded"
  | .loadFailed _ => "error.loadJobs"
  | .pollingStarted => "eventPollingStarted"
  | .pollingStopped => "eventPollingStopped"
  | .eventArrived _ _ => "jobPolled"
  | .eventsPolled _ _ => "eventsPolled"
  | .pollFailed _ _ => "error.pollEvents"
  | .progressChanged _ => "workflowProgress"
  | .workflowComplete => "workflowComplete"
  | .jobChanged _ _ _ .started => "jobStarted"
  | .jobChanged _ _ _ .progress => "jobProgress"
  | .jobChanged _ _ _ .complete => "jobComplete"
  | .jobChanged _ _ _ .failed => "jobFailed"
  | .jobSelected _ _ => "jobSelected"
  | .jobHovered _ _ => "jobMouseOver"

end Notice

/-- A listener, by what it asked for. -/
inductive Listener where
  | everything
  | named (name : String)
  deriving DecidableEq, Repr

/-- Whether a listener hears a notice. -/
def Listener.hears (listener : Listener) (notice : Notice) : Bool :=
  match listener with
  | .everything => true
  | .named name => name == notice.name

/-- Who hears which notice: notice by notice, the listeners in the order in which they came. -/
def deliveries (listeners : List Listener) (notices : List Notice) : List (Listener × Notice) :=
  notices.flatMap fun notice =>
    (listeners.filter fun listener => listener.hears notice).map fun listener => (listener, notice)

/-- What an operation leads to: the state after it, the notices given on the way and its answer. -/
structure Reaction (State Answer : Type) where
  state : State
  notices : List Notice
  answer : Answer

end JobGraph
