import JobGraph.Proofs.Polling.ClientFailures

/-!
# Recordings in any order

A recording sorts its events, so the order in which they were recorded matters only where the sort
leaves it as it was: between events of one id, and between those without an id.  When no id occurs
twice, the events that have one come in a single order.

* **Events without an id.**  A batch rejects them, whatever the limit and whatever came before.  So
  the workflow after a batch is that after the events of the batch that have an id.
* **Lockstep.**  Two pollers that differ only in such recordings never come to differ in anything
  else.
-/

namespace JobGraph

/-- Whether an event has an id. -/
def Event.isIdentified (event : Event) : Bool :=
  event.id.isSome

/-! ## Batches -/

namespace BatchReport

/-- What is entered for an event depends on no other entry. -/
theorem jobEvents_enter_congr {report report' : BatchReport}
    (h : report.jobEvents = report'.jobEvents) (id : Option Int) (fate : EventFate) :
    (report.enter id fate).jobEvents = (report'.enter id fate).jobEvents := by
  cases fate with
  | applied kind => exact congrArg (· + if kind.isJobEvent then 1 else 0) h
  | duplicate => exact h
  | deferred => exact h
  | rejected error => exact h

end BatchReport

namespace Workflow

/-- An event without an id is rejected, also at the limit. -/
theorem takeEvent_of_not_isIdentified {event : Event} (h : event.isIdentified = false)
    (w : Workflow) (limit : Option Nat) (jobEvents : Nat) :
    w.takeEvent limit jobEvents event =
      ⟨w, [.eventArrived event.id event.payload], .rejected .incompleteEvent⟩ := by
  have hid : event.id = none := Option.not_isSome_iff_eq_none.1 (ne_true_of_eq_false h)
  have hwell : event.isWellFormed = false := by
    rw [Event.isWellFormed, hid]
    rfl
  rw [takeEvent, hwell]
  rfl

theorem takeEvents_filter_isIdentified (w : Workflow) (limit : Option Nat)
    {report report' : BatchReport} (h : report.jobEvents = report'.jobEvents)
    (events : List Event) :
    (takeEvents limit w report (events.filter Event.isIdentified)).state =
      (takeEvents limit w report' events).state := by
  induction events generalizing w report report' with
  | nil => rfl
  | cons event rest ih =>
      cases hid : event.isIdentified with
      | false =>
          rw [List.filter_cons_of_neg (ne_true_of_eq_false hid), takeEvents,
            takeEvent_of_not_isIdentified hid]
          exact ih w h
      | true =>
          rw [List.filter_cons_of_pos hid, takeEvents, takeEvents, h]
          exact ih _ (BatchReport.jobEvents_enter_congr h event.id _)

/-- Batches with the same events that have an id lead to the same workflow. -/
theorem applyEvents_state_congr {events others : List Event}
    (h : others.filter Event.isIdentified = events.filter Event.isIdentified) (w : Workflow)
    (limit : Option Nat) :
    (w.applyEvents others limit).state = (w.applyEvents events limit).state := by
  unfold applyEvents
  rw [← w.takeEvents_filter_isIdentified limit rfl others, h,
    w.takeEvents_filter_isIdentified limit rfl events]

end Workflow

/-! ## Sorted recordings -/

namespace Recording

/-- Two recordings with the same jobs and the same events that have an id, in the same order. -/
structure Alike (r s : Recording) : Prop where
  jobs_eq : s.jobs = r.jobs
  identified_eq : s.events.filter Event.isIdentified = r.events.filter Event.isIdentified

theorem Alike.eventsAfter {r s : Recording} (h : Alike r s) (after : Int) :
    (s.eventsAfter after).filter Event.isIdentified =
      (r.eventsAfter after).filter Event.isIdentified := by
  rw [Recording.eventsAfter, Recording.eventsAfter, List.filter_comm, h.identified_eq,
    List.filter_comm]

variable {jobs : List JobEntry} {events others : List Event}

theorem events_new_perm (jobs : List JobEntry) (events : List Event) :
    (new jobs events).events.Perm events :=
  events.mergeSort_perm precedes

/-- When no id occurs twice, the ids of a recording rise. -/
theorem ascending_new (jobs : List JobEntry) (hids : (events.filterMap Event.id).Nodup) :
    ((new jobs events).events.filterMap Event.id).Pairwise (· < ·) := by
  have hnodup : ((new jobs events).events.filterMap Event.id).Nodup :=
    ((events_new_perm jobs events).filterMap Event.id).nodup_iff.2 hids
  have hsorted : ((new jobs events).events.filterMap Event.id).Pairwise (· ≤ ·) :=
    List.pairwise_filterMap.2 (inOrder_events_new jobs events)
  exact hsorted.imp₂ (fun _ _ hle hne => lt_of_le_of_ne hle hne) hnodup

/-- Two recordings of the same events are alike when no id occurs twice. -/
theorem alike_new (hperm : events.Perm others) (hids : (events.filterMap Event.id).Nodup) :
    Alike (new jobs events) (new jobs others) := by
  have hids' : (others.filterMap Event.id).Nodup := (hperm.filterMap Event.id).nodup_iff.1 hids
  have hrises := (List.pairwise_filterMap.1 (ascending_new jobs hids)).filter Event.isIdentified
  have hrises' := (List.pairwise_filterMap.1 (ascending_new jobs hids')).filter Event.isIdentified
  refine ⟨rfl, List.Perm.eq_of_pairwise ?_ hrises' hrises ?_⟩
  · -- no event that has an id comes before and behind another one
    intro first second hfirst hsecond hlt hgt
    obtain ⟨i, hi⟩ := Option.isSome_iff_exists.1 (List.mem_filter.1 hfirst).2
    obtain ⟨j, hj⟩ := Option.isSome_iff_exists.1 (List.mem_filter.1 hsecond).2
    exact absurd (hlt i hi j hj) (lt_asymm (hgt j hj i hi))
  · have hsorted : (new jobs others).events.Perm (new jobs events).events :=
      (events_new_perm jobs others).trans (hperm.symm.trans (events_new_perm jobs events).symm)
    exact hsorted.filter Event.isIdentified

end Recording

/-! ## Pollers in lockstep -/

namespace Poller

/-- Two pollers that differ in the recording they play, and in nothing else. -/
structure Lockstep (r s : Recording) (p q : Poller Recording) : Prop where
  client_eq : p.client = Recording.client
  source_eq : p.source = r
  eq : q = { p with source := s }

theorem loadJobs_recording {p : Poller Recording} (hclient : p.client = Recording.client) :
    p.loadJobs = p.onWorkflow fun w => w.load p.source.jobs := by
  unfold loadJobs onWorkflow
  rw [hclient]
  rfl

/-- A client that plays a recording never fails. -/
theorem poll_recording {p : Poller Recording} (hclient : p.client = Recording.client) :
    p.poll.state =
      if p.workflow.isComplete then p.halt
      else { p with
        failures := 0
        workflow := (p.workflow.applyEvents (p.source.eventsAfter p.workflow.lastEvent)
          p.maxEvents).state } := by
  unfold poll
  rw [hclient]
  split
  · exact p.stop_state
  · rfl

namespace Lockstep

variable {r s : Recording} {p q : Poller Recording}

theorem start (h : Lockstep r s p q) (maxEvents : Option Nat) :
    Lockstep r s (p.start maxEvents).state (q.start maxEvents).state := by
  obtain ⟨hclient, rfl, rfl⟩ := h
  unfold Poller.start
  dsimp only
  split
  · exact ⟨hclient, rfl, rfl⟩
  · exact ⟨hclient, rfl, rfl⟩

theorem halt (h : Lockstep r s p q) : Lockstep r s p.halt q.halt := by
  obtain ⟨hclient, rfl, rfl⟩ := h
  exact ⟨hclient, rfl, rfl⟩

theorem stop (h : Lockstep r s p q) : Lockstep r s p.stop.state q.stop.state := by
  rw [stop_state, stop_state]
  exact h.halt

theorem loadJobs (h : Lockstep r s p q) (halike : Recording.Alike r s) :
    q.loadJobs.answer = p.loadJobs.answer ∧ Lockstep r s p.loadJobs.state q.loadJobs.state := by
  obtain ⟨hclient, rfl, rfl⟩ := h
  have hother : { p with source := s }.loadJobs =
      { p with source := s }.onWorkflow fun w => w.load s.jobs := loadJobs_recording hclient
  rw [loadJobs_recording hclient, hother, halike.jobs_eq]
  exact ⟨rfl, hclient, rfl, rfl⟩

theorem poll (h : Lockstep r s p q) (halike : Recording.Alike r s) :
    Lockstep r s p.poll.state q.poll.state := by
  obtain ⟨hclient, rfl, rfl⟩ := h
  rw [poll_recording hclient, poll_recording (p := { p with source := s }) hclient]
  dsimp only
  rw [Workflow.applyEvents_state_congr (halike.eventsAfter p.workflow.lastEvent)]
  split
  · exact ⟨hclient, rfl, rfl⟩
  · exact ⟨hclient, rfl, rfl⟩

theorem isRunning_eq (h : Lockstep r s p q) : q.isRunning = p.isRunning := by
  rw [h.eq]

theorem pollTimes (h : Lockstep r s p q) (halike : Recording.Alike r s) (count : Nat) :
    Lockstep r s (pollTimes count p).state (pollTimes count q).state := by
  induction count generalizing p q with
  | zero => exact h
  | succ count ih =>
      unfold Poller.pollTimes
      rw [h.isRunning_eq]
      split
      · exact h
      · exact ih (h.poll halike)

theorem restart (h : Lockstep r s p q) (halike : Recording.Alike r s) (maxEvents : Option Nat) :
    Lockstep r s (p.restart maxEvents).state (q.restart maxEvents).state := by
  obtain ⟨hanswer, hloaded⟩ := h.stop.loadJobs halike
  unfold Poller.restart
  dsimp only
  rw [hanswer]
  split
  · exact hloaded
  · exact hloaded.start maxEvents

/-- One operation keeps two pollers in lockstep. -/
theorem operate (h : Lockstep r s p q) (halike : Recording.Alike r s) (operation : Operation) :
    Lockstep r s (p.perform operation) (q.perform operation) := by
  cases operation with
  | onWorkflow operation =>
      obtain ⟨hclient, rfl, rfl⟩ := h
      exact ⟨hclient, rfl, rfl⟩
  | loadJobs => exact (h.loadJobs halike).2
  | start maxEvents => exact h.start maxEvents
  | stop => exact h.stop
  | halt => exact h.halt
  | poll => exact h.poll halike
  | run limit =>
      have hlimit : q.maxEvents = p.maxEvents := by rw [h.eq]
      change Lockstep r s (p.run limit).state
        (Poller.pollTimes (max limit 1) (q.start q.maxEvents).state).state.halt
      rw [hlimit]
      exact ((h.start p.maxEvents).pollTimes halike (max limit 1)).halt
  | replay => exact h.restart halike (some 1)
  | jumpToEnd => exact h.restart halike none

/-- A whole run does. -/
theorem performAll (h : Lockstep r s p q) (halike : Recording.Alike r s)
    (operations : List Operation) :
    Lockstep r s (p.performAll operations) (q.performAll operations) := by
  induction operations generalizing p q with
  | nil => exact h
  | cons operation rest ih => exact ih (h.operate halike operation)

end Lockstep

/-! ## Every run -/

/-- Two recordings of some events that no poller tells apart. -/
structure Interchangeable (events : List Event) (r s : Recording) : Prop where
  /-- Asked for the events after an id, both give the same ones that have an id, -/
  identified_eq : ∀ after, (s.eventsAfter after).filter Event.isIdentified =
    (r.eventsAfter after).filter Event.isIdentified
  /-- in the order of their ids, -/
  ascending : ∀ after, ((r.eventsAfter after).filterMap Event.id).Pairwise (· < ·)
  /-- namely all that have a greater id. -/
  mem_iff : ∀ after event id, event.id = some id →
    (event ∈ r.eventsAfter after ↔ event ∈ events ∧ after < id)
  /-- The other events are given as well, in whatever order. -/
  perm : ∀ after, (s.eventsAfter after).Perm (r.eventsAfter after)
  /-- Any operations lead to pollers that differ in their recordings only. -/
  performAll_eq : ∀ settings operations,
    (new Recording.client s settings).performAll operations =
      { (new Recording.client r settings).performAll operations with source := s }

/-- **Recordings in any order.**  Events with distinct ids, and any events without one, may be
recorded in any order. -/
theorem interchangeable_of_perm (jobs : List JobEntry) {events others : List Event}
    (hperm : events.Perm others) (hids : (events.filterMap Event.id).Nodup) :
    Interchangeable events (.new jobs events) (.new jobs others) := by
  have halike : Recording.Alike (.new jobs events) (.new jobs others) :=
    Recording.alike_new hperm hids
  have hevents := Recording.events_new_perm jobs events
  refine ⟨halike.eventsAfter, ?_, ?_, ?_, ?_⟩
  · intro after
    exact (Recording.ascending_new jobs hids).sublist (List.filter_sublist.filterMap Event.id)
  · intro after event id hid
    rw [Recording.eventsAfter, List.mem_filter, hevents.mem_iff, hid]
    simp
  · intro after
    have hothers := Recording.events_new_perm jobs others
    exact (hothers.trans (hperm.symm.trans hevents.symm)).filter _
  · intro settings operations
    have hstart : Lockstep (.new jobs events) (.new jobs others)
        (new Recording.client (.new jobs events) settings)
        (new Recording.client (.new jobs others) settings) := ⟨rfl, rfl, rfl⟩
    exact (hstart.performAll halike operations).eq

/-- Two events without an id, and three whose ids are the least there is, zero and one. -/
def scattered : List Event :=
  let job : Json := .object [("job", .object [("name", .string "a")])]
  [.new 1 (.job .started) job, ⟨none, none, some "jobFailed", some job⟩,
    .new (-Decimal.int64Bound) .workflowProgress job, ⟨none, some 5, none, none⟩,
    .new 0 .workflowProgress job]

theorem interchangeable_scattered :
    scattered.Perm scattered.reverse ∧ (scattered.filterMap Event.id).Nodup ∧
      Interchangeable scattered (.new [⟨"a", .blank, []⟩] scattered)
        (.new [⟨"a", .blank, []⟩] scattered.reverse) := by
  have hperm : scattered.Perm scattered.reverse := scattered.reverse_perm.symm
  have hids : (scattered.filterMap Event.id).Nodup := by decide +kernel
  exact ⟨hperm, hids, interchangeable_of_perm [⟨"a", .blank, []⟩] hperm hids⟩

end Poller

end JobGraph
