import JobGraph.Polling.Client
import JobGraph.Settings.Basic
import JobGraph.Workflow.Events
import JobGraph.Workflow.Loading

/-!
# Polling

A poller keeps a workflow up to date with a client.  It polls while it is running, and it stops when
the workflow is complete, when the client failed too often in a row, or when it is told to.
-/

namespace JobGraph

/-- A poller with a client whose state is of type `Source`. -/
structure Poller (Source : Type) where
  client : Client Source
  source : Source
  workflow : Workflow
  /-- How many job events a poll may apply; none means all. -/
  maxEvents : Option Nat
  /-- How many polls in a row may fail. -/
  maxFailures : Nat
  /-- How many polls in a row have failed, in 32 bits. -/
  failures : Nat
  isRunning : Bool

/-- What became of a poll. -/
inductive PollOutcome where
  | polled (report : BatchReport)
  /-- The client failed. -/
  | failed
  /-- The workflow was complete before. -/
  | complete
  deriving DecidableEq, Repr

namespace Poller

variable {Source : Type}

/-- A poller with an empty workflow that is not running yet. -/
def new (client : Client Source) (source : Source) (settings : Settings) : Poller Source :=
  { client, source
    workflow := .new settings.workflowId settings.layout
    maxEvents := settings.maxEventsPerPoll
    maxFailures := settings.maxClientFailures
    failures := 0
    isRunning := false }

/-- Does something to the workflow alone. -/
def onWorkflow {α : Type} (p : Poller Source) (react : Workflow → Reaction Workflow α) :
    Reaction (Poller Source) α :=
  let reaction := react p.workflow
  ⟨{ p with workflow := reaction.state }, reaction.notices, reaction.answer⟩

/-! ## Starting and stopping -/

/-- Fetches the job list and loads it. -/
def loadJobs (p : Poller Source) :
    Reaction (Poller Source) (Except WorkflowError LayeringReport) :=
  let (reply, source) := p.client.fetchJobs p.source p.workflow.id
  let p := { p with source }
  match reply with
  | .error error => ⟨p, [.loadingJobs, .loadFailed error.message], .error (.client error)⟩
  | .ok entries => p.onWorkflow fun workflow => workflow.load entries

/-- Starts polling; a poller that is running stays as it is. -/
def start (p : Poller Source) (maxEvents : Option Nat) : Reaction (Poller Source) Unit :=
  if p.isRunning then ⟨p, [], ()⟩
  else ⟨{ p with maxEvents, failures := 0, isRunning := true }, [.pollingStarted], ()⟩

/-- Stops polling; a poller that is not running stays as it is. -/
def stop (p : Poller Source) : Reaction (Poller Source) Unit :=
  if p.isRunning then ⟨{ p with isRunning := false }, [.pollingStopped], ()⟩
  else ⟨p, [], ()⟩

/-- Stops polling from outside, without a word. -/
def halt (p : Poller Source) : Poller Source :=
  { p with isRunning := false }

/-! ## Polls -/

/-- Counts a poll that failed, and stops when there were too many in a row.  The counter has 32 bits
and starts again from zero when they are used up. -/
def countFailure (p : Poller Source) (error : ClientError) :
    Reaction (Poller Source) PollOutcome :=
  let counted := { p with failures := (p.failures + 1) % UInt32.size }
  let stopped := if p.maxFailures < counted.failures then counted.stop else ⟨counted, [], ()⟩
  ⟨stopped.state, stopped.notices ++ [.pollFailed error.message counted.failures], .failed⟩

/-- Fetches events once and applies them. -/
def poll (p : Poller Source) : Reaction (Poller Source) PollOutcome :=
  if p.workflow.isComplete then
    let stopped := p.stop
    ⟨stopped.state, stopped.notices ++ [.workflowComplete], .complete⟩
  else
    let (reply, source) := p.client.fetchEvents p.source p.workflow.id p.workflow.lastEvent
    let p := { p with source }
    match reply with
    | .error error => p.countFailure error
    | .ok events =>
        let applied := { p with failures := 0 }.onWorkflow fun workflow =>
          workflow.applyEvents events p.maxEvents
        ⟨applied.state,
          applied.notices ++ [.eventsPolled events.length applied.answer.applied],
          .polled applied.answer⟩

/-- Polls while running, at most so many times; the answer tells what became of each poll. -/
def pollTimes : Nat → Poller Source → Reaction (Poller Source) (List PollOutcome)
  | 0, p => ⟨p, [], []⟩
  | count + 1, p =>
      if !p.isRunning then ⟨p, [], []⟩
      else
        let polled := p.poll
        let others := pollTimes count polled.state
        ⟨others.state, polled.notices ++ others.notices, polled.answer :: others.answer⟩

/-- Starts polling with the present limit of events, unless it is running, and polls until it stops,
or else until it is stopped from outside after so many polls.  A poller that has started polls at
least once.  The answer is the number of polls. -/
def run (p : Poller Source) (limit : Nat) : Reaction (Poller Source) Nat :=
  let started := p.start p.maxEvents
  let polled := pollTimes (max limit 1) started.state
  ⟨polled.state.halt, started.notices ++ polled.notices, polled.answer.length⟩

/-! ## Playing -/

/-- Loads the jobs anew and starts with a limit of events. -/
def restart (p : Poller Source) (maxEvents : Option Nat) :
    Reaction (Poller Source) (Except WorkflowError LayeringReport) :=
  let stopped := p.stop
  let loaded := stopped.state.loadJobs
  match loaded.answer with
  | .error error => ⟨loaded.state, stopped.notices ++ loaded.notices, .error error⟩
  | .ok report =>
      let started := loaded.state.start maxEvents
      ⟨started.state, stopped.notices ++ loaded.notices ++ started.notices, .ok report⟩

/-- Starts anew, one event at a time. -/
def replay (p : Poller Source) : Reaction (Poller Source) (Except WorkflowError LayeringReport) :=
  p.restart (some 1)

/-- Starts anew, with all events there are. -/
def jumpToEnd (p : Poller Source) :
    Reaction (Poller Source) (Except WorkflowError LayeringReport) :=
  p.restart none

end Poller

end JobGraph
