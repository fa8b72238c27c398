import JobGraph.Polling.Poller
import JobGraph.Proofs.Workflow.History

/-!
# Histories of pollers

A poller asks its client for the events after the last one that its workflow has applied.  So the
history of its workflow decides what it asks, whatever the client replies and whatever else is done
to the workflow between two polls.

* `Poller.Steady`: what holds of a history and a poller at first and is kept by its elementary steps
  (changes of the workflow alone, starting and stopping, loads and polls) holds after every run.
* `Poller.recorded_performAll`: the history is that of a run after which the workflow has its last
  event.
* `Poller.noted_performAll`: a client that notes the ids with which it is asked has noted those of
  the history.
-/

namespace JobGraph

variable {Source : Type}

/-- A client that notes after which ids it is asked for events, and otherwise replies as another
one. -/
def Client.noting (client : Client Source) : Client (Source × List Int) where
  fetchJobs source workflow :=
    let fetched := client.fetchJobs source.1 workflow
    (fetched.1, fetched.2, source.2)
  fetchEvents source workflow after :=
    let fetched := client.fetchEvents source.1 workflow after
    (fetched.1, fetched.2, source.2 ++ [after])

namespace Poller

/-! ## Operations -/

/-- Something done to a poller. -/
inductive Operation where
  | onWorkflow (operation : Workflow.Operation)
  | loadJobs
  | start (maxEvents : Option Nat)
  | stop
  | halt
  | poll
  | run (limit : Nat)
  | replay
  | jumpToEnd

/-- The poller after an operation, whether it fails or not. -/
def perform (p : Poller Source) : Operation → Poller Source
  | .onWorkflow operation => { p with workflow := p.workflow.perform operation }
  | .loadJobs => p.loadJobs.state
  | .start maxEvents => (p.start maxEvents).state
  | .stop => p.stop.state
  | .halt => p.halt
  | .poll => p.poll.state
  | .run limit => (p.run limit).state
  | .replay => p.replay.state
  | .jumpToEnd => p.jumpToEnd.state

/-- The poller after a list of operations. -/
def performAll (p : Poller Source) (operations : List Operation) : Poller Source :=
  operations.foldl perform p

/-! ## Histories -/

/-- What a poll adds to a history: a poller of an incomplete workflow asks its client, and applies
the events in the reply. -/
def pollOccurrences (p : Poller Source) : List Occurrence :=
  if p.workflow.isComplete then []
  else
    .asked p.workflow.lastEvent ::
      match (p.client.fetchEvents p.source p.workflow.id p.workflow.lastEvent).1 with
      | .ok events => p.workflow.batchOccurrences events p.maxEvents
      | .error _ => []

/-- What polling while running adds to a history. -/
def timesOccurrences : Nat → Poller Source → List Occurrence
  | 0, _ => []
  | count + 1, p =>
      if !p.isRunning then [] else p.pollOccurrences ++ timesOccurrences count p.poll.state

/-- What an operation adds to a history. -/
def occurrences (p : Poller Source) : Operation → List Occurrence
  | .onWorkflow operation => p.workflow.occurrences operation
  | .loadJobs => Workflow.loadOccurrences p.loadJobs.answer
  | .start _ | .stop | .halt => []
  | .poll => p.pollOccurrences
  | .run limit => timesOccurrences (max limit 1) (p.start p.maxEvents).state
  | .replay => Workflow.loadOccurrences p.replay.answer
  | .jumpToEnd => Workflow.loadOccurrences p.jumpToEnd.answer

/-- The history of a run. -/
def history (p : Poller Source) : List Operation → List Occurrence
  | [] => []
  | operation :: rest => p.occurrences operation ++ (p.perform operation).history rest

/-! ## What the elementary steps keep -/

/-- The elementary steps of a poller keep something about the history so far and the poller. -/
structure Steady (kept : List Occurrence → Poller Source → Prop) : Prop where
  /-- Whether a poller runs, and how often its client may fail, does not matter. -/
  control {history : List Occurrence} {p q : Poller Source} (h : kept history p)
    (hclient : q.client = p.client) (hsource : q.source = p.source)
    (hworkflow : q.workflow = p.workflow) : kept history q
  perform {history : List Occurrence} {p : Poller Source} (h : kept history p)
    (operation : Workflow.Operation) :
    kept (history ++ p.workflow.occurrences operation)
      { p with workflow := p.workflow.perform operation }
  loadJobs {history : List Occurrence} {p : Poller Source} (h : kept history p) :
    kept (history ++ Workflow.loadOccurrences p.loadJobs.answer) p.loadJobs.state
  poll {history : List Occurrence} {p : Poller Source} (h : kept history p) :
    kept (history ++ p.pollOccurrences) p.poll.state

theorem start_frame (p : Poller Source) (maxEvents : Option Nat) :
    (p.start maxEvents).state.client = p.client ∧ (p.start maxEvents).state.source = p.source ∧
      (p.start maxEvents).state.workflow = p.workflow := by
  unfold start
  split <;> exact ⟨rfl, rfl, rfl⟩

theorem stop_frame (p : Poller Source) :
    p.stop.state.client = p.client ∧ p.stop.state.source = p.source ∧
      p.stop.state.workflow = p.workflow := by
  unfold stop
  split <;> exact ⟨rfl, rfl, rfl⟩

theorem countFailure_frame (p : Poller Source) (error : ClientError) :
    (p.countFailure error).state.client = p.client ∧
      (p.countFailure error).state.source = p.source ∧
      (p.countFailure error).state.workflow = p.workflow := by
  unfold countFailure
  dsimp only
  split
  · exact stop_frame _
  · exact ⟨rfl, rfl, rfl⟩

/-- What a poll does to the workflow, and to the state of the client. -/
theorem poll_cases (p : Poller Source) :
    p.poll.state.client = p.client ∧
      ((p.pollOccurrences = [] ∧ p.poll.state.source = p.source ∧
          p.poll.state.workflow = p.workflow) ∨
        ∃ applied, p.pollOccurrences = .asked p.workflow.lastEvent :: applied ∧
          p.poll.state.source =
            (p.client.fetchEvents p.source p.workflow.id p.workflow.lastEvent).2 ∧
          ((applied = [] ∧ p.poll.state.workflow = p.workflow) ∨
            ∃ events, applied = p.workflow.batchOccurrences events p.maxEvents ∧
              p.poll.state.workflow = (p.workflow.applyEvents events p.maxEvents).state)) := by
  unfold poll pollOccurrences
  split
  · obtain ⟨hclient, hsource, hworkflow⟩ := p.stop_frame
    exact ⟨hclient, .inl ⟨rfl, hsource, hworkflow⟩⟩
  · obtain ⟨reply, source⟩ := p.client.fetchEvents p.source p.workflow.id p.workflow.lastEvent
    cases reply with
    | error error =>
        obtain ⟨hclient, hsource, hworkflow⟩ := countFailure_frame { p with source } error
        exact ⟨hclient, .inr ⟨_, rfl, hsource, .inl ⟨rfl, hworkflow⟩⟩⟩
    | ok events => exact ⟨rfl, .inr ⟨_, rfl, rfl, .inr ⟨events, rfl, rfl⟩⟩⟩

namespace Steady

variable {kept : List Occurrence → Poller Source → Prop} {history : List Occurrence}
  {p : Poller Source}

theorem start (hkept : Steady kept) (h : kept history p) (maxEvents : Option Nat) :
    kept history (p.start maxEvents).state := by
  obtain ⟨hclient, hsource, hworkflow⟩ := p.start_frame maxEvents
  exact hkept.control h hclient hsource hworkflow

theorem stop (hkept : Steady kept) (h : kept history p) : kept history p.stop.state := by
  obtain ⟨hclient, hsource, hworkflow⟩ := p.stop_frame
  exact hkept.control h hclient hsource hworkflow

theorem pollTimes (hkept : Steady kept) (count : Nat) (h : kept history p) :
    kept (history ++ timesOccurrences count p) (Poller.pollTimes count p).state := by
  induction count generalizing history p with
  | zero =>
      rw [timesOccurrences, List.append_nil]
      exact h
  | succ count ih =>
      unfold timesOccurrences Poller.pollTimes
      split
      · rw [List.append_nil]
        exact h
      · rw [← List.append_assoc]
        exact ih (hkept.poll h)

theorem restart (hkept : Steady kept) (h : kept history p) (maxEvents : Option Nat) :
    kept (history ++ Workflow.loadOccurrences (p.restart maxEvents).answer)
      (p.restart maxEvents).state := by
  have hloaded := hkept.loadJobs (hkept.stop h)
  unfold Poller.restart
  dsimp only
  split
  · rename_i error heq
    rw [heq] at hloaded
    exact hloaded
  · rename_i report heq
    rw [heq] at hloaded
    exact hkept.start hloaded maxEvents

/-- One operation keeps what the elementary steps keep. -/
theorem operate (hkept : Steady kept) (h : kept history p) (operation : Operation) :
    kept (history ++ p.occurrences operation) (p.perform operation) := by
  cases operation with
  | onWorkflow operation => exact hkept.perform h operation
  | loadJobs => exact hkept.loadJobs h
  | start maxEvents =>
      rw [occurrences, List.append_nil]
      exact hkept.start h maxEvents
  | stop =>
      rw [occurrences, List.append_nil]
      exact hkept.stop h
  | halt =>
      rw [occurrences, List.append_nil]
      exact hkept.control h rfl rfl rfl
  | poll => exact hkept.poll h
  | run limit =>
      have hpolled := hkept.pollTimes (max limit 1) (hkept.start h p.maxEvents)
      exact hkept.control hpolled rfl rfl rfl
  | replay => exact hkept.restart h (some 1)
  | jumpToEnd => exact hkept.restart h none

/-- A whole run does. -/
theorem performAll (hkept : Steady kept) (h : kept history p) (operations : List Operation) :
    kept (history ++ p.history operations) (p.performAll operations) := by
  induction operations generalizing history p with
  | nil =>
      rw [Poller.history, List.append_nil]
      exact h
  | cons operation rest ih =>
      rw [Poller.history, ← List.append_assoc]
      exact ih (hkept.operate h operation)

end Steady

/-! ## The order of events -/

theorem steady_recorded :
    Steady fun history (p : Poller Source) => Recorded history p.workflow.lastEvent where
  control h _ _ hworkflow := by rwa [hworkflow]
  perform h operation := h.perform operation
  loadJobs {history p} h := by
    unfold loadJobs
    dsimp only
    split
    · exact h.append_nil
    · exact h.load _
  poll {history p} h := by
    obtain ⟨-, ⟨hoccurrences, -, hworkflow⟩ | ⟨applied, hoccurrences, -, happlied⟩⟩ := p.poll_cases
    · rw [hoccurrences, hworkflow]
      exact h.append_nil
    · rw [hoccurrences, List.append_cons]
      rcases happlied with ⟨rfl, hworkflow⟩ | ⟨events, rfl, hworkflow⟩
      · rw [hworkflow]
        exact h.asked.append_nil
      · rw [hworkflow]
        exact h.asked.applyEvents events p.maxEvents

theorem recorded_performAll (client : Client Source) (source : Source) (settings : Settings)
    (operations : List Operation) :
    Recorded ((new client source settings).history operations)
      ((new client source settings).performAll operations).workflow.lastEvent :=
  have hstart : Recorded [] (new client source settings).workflow.lastEvent := .nil
  steady_recorded.performAll hstart operations

end Poller

/-! ## What a client is asked -/

namespace Workflow

theorem askedAfter?_batchOccurrences (w : Workflow) (events : List Event) (limit : Option Nat) :
    (w.batchOccurrences events limit).filterMap Occurrence.askedAfter? = [] := by
  rw [batchOccurrences, List.filterMap_filterMap, List.filterMap_eq_nil_iff]
  rintro ⟨event, fate⟩ -
  cases fate with
  | applied kind =>
      cases hid : event.id <;> simp [EventFate.occurrence?, hid, Occurrence.askedAfter?]
  | duplicate | deferred | rejected _ => rfl

theorem askedAfter?_loadOccurrences (answer : Except WorkflowError LayeringReport) :
    (loadOccurrences answer).filterMap Occurrence.askedAfter? = [] := by
  cases answer <;> rfl

theorem askedAfter?_occurrences (w : Workflow) (operation : Operation) :
    (w.occurrences operation).filterMap Occurrence.askedAfter? = [] := by
  cases operation with
  | load entries => exact askedAfter?_loadOccurrences _
  | applyEvents events limit => exact w.askedAfter?_batchOccurrences events limit
  | applyEvent event =>
      change (eventOccurrences event (w.applyEvent event).answer).filterMap _ = []
      unfold eventOccurrences
      split
      · cases event.id <;> rfl
      · rfl
      · rfl
  | updateJob _ | setProgress _ | select _ | hover _ => rfl

end Workflow

open Occurrence

namespace Poller

theorem steady_noted (client : Client Source) :
    Steady fun history (p : Poller (Source × List Int)) =>
      p.client = client.noting ∧ p.source.2 = history.filterMap askedAfter? where
  control h hclient hsource _ := by rwa [hclient, hsource]
  perform {history p} h operation := by
    rw [List.filterMap_append, Workflow.askedAfter?_occurrences, List.append_nil]
    exact h
  loadJobs {history p} h := by
    rw [List.filterMap_append, Workflow.askedAfter?_loadOccurrences, List.append_nil]
    unfold loadJobs
    rw [h.1]
    dsimp only
    split
    · exact ⟨rfl, h.2⟩
    · exact ⟨rfl, h.2⟩
  poll {history p} h := by
    obtain ⟨hclient, ⟨hoccurrences, hsource, -⟩ | ⟨applied, hoccurrences, hsource, happlied⟩⟩ :=
      p.poll_cases
    · rw [hclient, hsource, hoccurrences, List.append_nil]
      exact h
    · have hnone : applied.filterMap askedAfter? = [] := by
        rcases happlied with ⟨rfl, -⟩ | ⟨events, rfl, -⟩
        · rfl
        · exact Workflow.askedAfter?_batchOccurrences _ _ _
      refine ⟨hclient.trans h.1, ?_⟩
      rw [hsource, hoccurrences, List.filterMap_append, ← h.2, h.1]
      simp [Client.noting, askedAfter?, hnone]

theorem noted_performAll (client : Client Source) (source : Source) (settings : Settings)
    (operations : List Operation) :
    ((new client.noting (source, []) settings).performAll operations).source.2 =
      ((new client.noting (source, []) settings).history operations).filterMap askedAfter? := by
  have hstart : (new client.noting (source, []) settings).client = client.noting ∧
      (new client.noting (source, []) settings).source.2 =
        ([] : List Occurrence).filterMap askedAfter? := ⟨rfl, rfl⟩
  exact ((steady_noted client).performAll hstart operations).2

end Poller

/-- **The order of events.**  In every run of a workflow or of a poller, whatever its client replies,
events are applied and asked for in order, and the workflow knows the id of the event applied last
since the last load.  A client that notes what it is asked has noted the questions of the history. -/
theorem ordered_history :
    (∀ (id : Option String) (options : LayoutOptions) (operations : List Workflow.Operation),
        Ordered ((Workflow.new id options).history operations) ∧
          ((Workflow.new id options).run operations).lastEvent =
            lastApplied ((Workflow.new id options).history operations)) ∧
      ∀ (Source : Type) (client : Client Source) (source : Source) (settings : Settings)
          (operations : List Poller.Operation),
        Ordered ((Poller.new client source settings).history operations) ∧
          ((Poller.new client source settings).performAll operations).workflow.lastEvent =
            lastApplied ((Poller.new client source settings).history operations) ∧
          ((Poller.new client.noting (source, []) settings).performAll operations).source.2 =
            ((Poller.new client.noting (source, []) settings).history operations).filterMap
              askedAfter? := by
  constructor
  · intro id options operations
    have hstart : Recorded [] (Workflow.new id options).lastEvent := .nil
    have hrecorded : Recorded ((Workflow.new id options).history operations)
        ((Workflow.new id options).run operations).lastEvent :=
      hstart.run operations
    exact ⟨hrecorded.ordered, hrecorded.eq_lastApplied⟩
  · intro Source client source settings operations
    have hrecorded := Poller.recorded_performAll client source settings operations
    exact ⟨hrecorded.ordered, hrecorded.eq_lastApplied,
      Poller.noted_performAll client source settings operations⟩

end JobGraph
