import JobGraph.Proofs.Polling.Playback

/-!
# Playing a recording ends

The loop that plays a recording has no counter.  It goes on while polls apply something or put
something off, and stops otherwise.

* **Progress.**  Who puts an event off has applied one before it in the same poll, for the limit is
  reached by applying.  So every poll after which the loop goes on has raised the last event, to one
  that was recorded.  The recorded ids above the last event grow fewer, `ahead`, and bound the polls.
* **Fuel.**  It is not what ends the loop: any fuel above that bound gives the same polls.
* **Completeness.**  A loop that ends and leaves the workflow incomplete has absorbed the whole log.
-/

namespace JobGraph

/-! ## Batches that raise the last event -/

namespace Workflow

variable {w : Workflow} {limit : Option Nat}

/-- A batch that puts an event off has applied one. -/
theorem lastEvent_lt_of_deferred_takeEvents (report : BatchReport) {events : List Event}
    (hlimit : limitReached limit report.jobEvents = false)
    (hdeferred : (takeEvents limit w report events).answer.deferred ≠ report.deferred) :
    w.lastEvent < (takeEvents limit w report events).state.lastEvent := by
  induction events generalizing report with
  | nil => exact absurd rfl hdeferred
  | cons event rest ih =>
      rw [takeEvents, takeEvent_of_not_reached hlimit event] at hdeferred ⊢
      dsimp only at hdeferred ⊢
      rcases w.absorb_cases event with ⟨_, id, -, -, hlt, hlast⟩ | ⟨hnot, hput, hsame⟩
      · -- what follows does not lower the last event
        obtain ⟨count, hstate, -⟩ := @takeEvents_state (w.absorb event) limit
          (report.enter event.id (w.takeEvent none 0 event).answer) rest
        have hle := lastEvent_le_foldl_absorb (w.absorb event) (rest.take count)
        change _ < (takeEvents limit (w.absorb event) _ rest).state.lastEvent
        rw [hstate]
        omega
      · rw [show (w.takeEvent none 0 event).state = w from hsame] at hdeferred ⊢
        refine ih _ ?_ ?_
        · rwa [report.jobEvents_enter event.id hnot]
        · rwa [report.deferred_enter event.id hput]

/-- The last event after some events is the one before them, or a later one among them. -/
theorem lastEvent_foldl_absorb_cases (w : Workflow) (events : List Event) :
    (events.foldl absorb w).lastEvent = w.lastEvent ∨
      ∃ event ∈ events, event.id = some (events.foldl absorb w).lastEvent := by
  induction events generalizing w with
  | nil => exact .inl rfl
  | cons event rest ih =>
      rcases ih (w.absorb event) with hsame | ⟨later, hlater, hid⟩
      · rcases w.absorb_eq_or_lt event with heq | ⟨id, hid, -, hlast⟩
        · exact .inl (hsame.trans (congrArg lastEvent heq))
        · refine .inr ⟨event, List.mem_cons_self, ?_⟩
          rw [hid, List.foldl_cons, hsame, hlast]
      · exact .inr ⟨later, List.mem_cons_of_mem event hlater, hid⟩

/-- A batch that raises the last event raises it to one of its own. -/
theorem lastEvent_applyEvents_cases (w : Workflow) (events : List Event) (limit : Option Nat) :
    (w.applyEvents events limit).state.lastEvent = w.lastEvent ∨
      w.lastEvent < (w.applyEvents events limit).state.lastEvent ∧
        ∃ event ∈ events, event.id = some (w.applyEvents events limit).state.lastEvent := by
  obtain ⟨count, hstate, -⟩ := w.applyEvents_state events limit
  rw [hstate]
  rcases w.lastEvent_foldl_absorb_cases (events.take count) with hsame | ⟨event, hevent, hid⟩
  · exact .inl hsame
  · rcases (w.lastEvent_le_foldl_absorb (events.take count)).eq_or_lt with hsame | hlt
    · exact .inl hsame.symm
    · exact .inr ⟨hlt, event, List.mem_of_mem_take hevent, hid⟩

end Workflow

open Workflow

/-! ## Recorded ids -/

/-- The ids of the recorded events, each once. -/
def Recording.ids (recording : Recording) : Finset Int :=
  (recording.events.filterMap Event.id).toFinset

theorem Recording.mem_ids_iff {recording : Recording} {id : Int} :
    id ∈ recording.ids ↔ ∃ event ∈ recording.events, event.id = some id := by
  rw [ids, List.mem_toFinset, List.mem_filterMap]

theorem Recording.card_ids_le (recording : Recording) :
    recording.ids.card ≤ recording.events.length :=
  (List.toFinset_card_le _).trans (List.length_filterMap_le _ _)

namespace Poller

variable {p : Poller Recording}

/-- How many recorded ids lie above the last event. -/
def ahead (p : Poller Recording) : Nat :=
  (p.source.ids.filter fun id => p.workflow.lastEvent < id).card

theorem ahead_le_card_ids (p : Poller Recording) : p.ahead ≤ p.source.ids.card :=
  Finset.card_filter_le _ _

/-! ## One poll -/

/-- A poller that plays a recording, and may apply an event whenever it polls. -/
structure Plays (p : Poller Recording) : Prop where
  client_eq : p.client = Recording.client
  limit_open : limitReached p.maxEvents 0 = false

/-- The last event was raised to one that was recorded. -/
structure Raised (p q : Poller Recording) : Prop where
  lt : p.workflow.lastEvent < q.workflow.lastEvent
  mem_ids : q.workflow.lastEvent ∈ p.source.ids

theorem pollOrStop_of_isComplete {Source : Type} {p : Poller Source}
    (h : p.workflow.isComplete = true) : p.pollOrStop.state = p.halt := by
  rw [← stop_state]
  simp [Poller.pollOrStop, poll, h, isStalled]

/-- What a poll of a recording applies, and whether it ends the loop. -/
theorem pollOrStop_of_incomplete (hclient : p.client = Recording.client)
    (h : p.workflow.isComplete = false) {batch : Reaction Workflow BatchReport}
    (hbatch : p.workflow.applyEvents (p.source.eventsAfter p.workflow.lastEvent) p.maxEvents = batch) :
    p.pollOrStop.state = { p with
      workflow := batch.state
      failures := 0
      isRunning := p.isRunning &&
        !(batch.state.lastEvent == p.workflow.lastEvent && batch.answer.deferred == 0) } := by
  have hpoll : p.poll.state = { p with workflow := batch.state, failures := 0 } ∧
      p.poll.answer = .polled batch.answer := by
    simp [poll, h, hclient, Recording.client, onWorkflow, hbatch]
  rw [Poller.pollOrStop, hpoll.1, hpoll.2, isStalled, apply_ite Reaction.state, stop_state]
  dsimp only
  split
  · rename_i hstalled
    rw [hstalled]
    simp [halt]
  · rename_i hgoes
    rw [Bool.not_eq_true] at hgoes
    rw [hgoes]
    simp [hpoll.1]

/-- A poll of a recording ends the loop, or it raises the last event. -/
theorem Plays.pollOrStop (h : p.Plays) :
    p.pollOrStop.state.Plays ∧ p.pollOrStop.state.source = p.source ∧
      (p.pollOrStop.state.isRunning = true → Raised p p.pollOrStop.state) := by
  cases hcomplete : p.workflow.isComplete with
  | true =>
      rw [pollOrStop_of_isComplete hcomplete]
      exact ⟨⟨h.client_eq, h.limit_open⟩, rfl, fun hrunning => absurd hrunning Bool.false_ne_true⟩
  | false =>
      rw [pollOrStop_of_incomplete h.client_eq hcomplete rfl]
      refine ⟨⟨h.client_eq, h.limit_open⟩, rfl, fun hrunning => ?_⟩
      have hgoes := (Bool.and_eq_true_iff.1 hrunning).2
      rcases p.workflow.lastEvent_applyEvents_cases
        (p.source.eventsAfter p.workflow.lastEvent) p.maxEvents with hsame | ⟨hlt, event, hevent, hid⟩
      · -- an event was put off, so that another one was applied
        have hput : (p.workflow.applyEvents (p.source.eventsAfter p.workflow.lastEvent)
            p.maxEvents).answer.deferred ≠ 0 := by
          intro hnone
          simp [hsame, hnone] at hgoes
        have hlt := lastEvent_lt_of_deferred_takeEvents .empty h.limit_open hput
        exact absurd hsame.symm hlt.ne
      · exact ⟨hlt, Recording.mem_ids_iff.2 ⟨event, (List.mem_filter.1 hevent).1, hid⟩⟩

theorem Raised.ahead_lt {q : Poller Recording} (h : Raised p q) (hsource : q.source = p.source) :
    q.ahead < p.ahead := by
  unfold ahead
  rw [hsource]
  refine Finset.card_lt_card (Finset.ssubset_iff_of_subset ?_ |>.2 ?_)
  · intro id hid
    rw [Finset.mem_filter] at hid ⊢
    exact ⟨hid.1, h.lt.trans hid.2⟩
  · -- the id that the last event was raised to is not above it any more
    refine ⟨q.workflow.lastEvent, Finset.mem_filter.2 ⟨h.mem_ids, h.lt⟩, fun hid => ?_⟩
    exact lt_irrefl _ (Finset.mem_filter.1 hid).2

/-! ## The whole loop -/

theorem pollOut_of_running {Source : Type} {p : Poller Source} (hrunning : p.isRunning = true)
    (fuel : Nat) :
    pollOut (fuel + 1) p =
      ⟨(pollOut fuel p.pollOrStop.state).state,
        p.pollOrStop.notices ++ (pollOut fuel p.pollOrStop.state).notices,
        p.pollOrStop.answer :: (pollOut fuel p.pollOrStop.state).answer⟩ := by
  rw [pollOut, hrunning]
  rfl

/-- One more poll is made of what the polls before leave. -/
theorem pollOut_succ_state {Source : Type} (p : Poller Source) (count : Nat) :
    (pollOut (count + 1) p).state =
      if (pollOut count p).state.isRunning then (pollOut count p).state.pollOrStop.state
      else (pollOut count p).state := by
  induction count generalizing p with
  | zero =>
      cases hrunning : p.isRunning with
      | true => rw [pollOut_of_running hrunning, pollOut, pollOut, hrunning]; rfl
      | false => rw [pollOut_of_not_running hrunning, pollOut, hrunning]; rfl
  | succ count ih =>
      cases hrunning : p.isRunning with
      | true =>
          rw [pollOut_of_running hrunning, pollOut_of_running hrunning]
          exact ih p.pollOrStop.state
      | false => rw [pollOut_of_not_running hrunning, pollOut_of_not_running hrunning, hrunning]; rfl

namespace Plays

theorem pollOut_state (h : p.Plays) (count : Nat) :
    (pollOut count p).state.Plays ∧ (pollOut count p).state.source = p.source := by
  induction count with
  | zero => exact ⟨h, rfl⟩
  | succ count ih =>
      rw [pollOut_succ_state]
      split
      · obtain ⟨hplays, hsource, -⟩ := ih.1.pollOrStop
        exact ⟨hplays, hsource.trans ih.2⟩
      · exact ih

/-- Every poll but the last one raises the last event. -/
theorem raised_pollOut (h : p.Plays) {count : Nat}
    (hrunning : (pollOut (count + 1) p).state.isRunning = true) :
    Raised (pollOut count p).state (pollOut (count + 1) p).state := by
  rw [pollOut_succ_state] at hrunning ⊢
  split at hrunning
  · rename_i hbefore
    rw [if_pos hbefore]
    exact (h.pollOut_state count).1.pollOrStop.2.2 hrunning
  · rename_i hbefore
    exact absurd hrunning hbefore

/-- There is one poll for each recorded id ahead at most, and one more. -/
theorem length_answer_pollOut_le (h : p.Plays) (fuel : Nat) :
    (pollOut fuel p).answer.length ≤ p.ahead + 1 := by
  induction fuel generalizing p with
  | zero => exact Nat.zero_le _
  | succ fuel ih =>
      cases hrunning : p.isRunning with
      | false =>
          rw [pollOut_of_not_running hrunning]
          exact Nat.zero_le _
      | true =>
          obtain ⟨hplays, hsource, hraised⟩ := h.pollOrStop
          rw [pollOut_of_running hrunning, List.length_cons]
          cases hgoes : p.pollOrStop.state.isRunning with
          | false =>
              rw [pollOut_of_not_running hgoes]
              exact Nat.succ_le_succ (Nat.zero_le _)
          | true =>
              have hlt := (hraised hgoes).ahead_lt hsource
              have := ih hplays
              omega

/-- With fuel for the recorded ids ahead and one more poll, the loop ends, and more fuel makes no
difference. -/
theorem pollOut_eq_of_ahead_lt (h : p.Plays) {fuel more : Nat} (hfuel : p.ahead < fuel)
    (hmore : p.ahead < more) :
    pollOut more p = pollOut fuel p ∧ (pollOut fuel p).state.isRunning = false := by
  induction fuel generalizing p more with
  | zero => exact absurd hfuel (Nat.not_lt_zero _)
  | succ fuel ih =>
      obtain ⟨more, rfl⟩ := Nat.exists_eq_succ_of_ne_zero (Nat.ne_zero_of_lt hmore)
      cases hrunning : p.isRunning with
      | false =>
          rw [pollOut_of_not_running hrunning, pollOut_of_not_running hrunning]
          exact ⟨rfl, hrunning⟩
      | true =>
          obtain ⟨hplays, hsource, hraised⟩ := h.pollOrStop
          rw [Nat.succ_eq_add_one, pollOut_of_running hrunning, pollOut_of_running hrunning]
          cases hgoes : p.pollOrStop.state.isRunning with
          | false =>
              rw [pollOut_of_not_running hgoes, pollOut_of_not_running hgoes]
              exact ⟨rfl, hgoes⟩
          | true =>
              have hlt := (hraised hgoes).ahead_lt hsource
              obtain ⟨heq, hends⟩ := ih hplays (by omega) (Nat.lt_of_lt_of_le hlt (Nat.lt_succ_iff.1 hmore))
              rw [heq]
              exact ⟨rfl, hends⟩

end Plays

/-! ## Nothing is left behind -/

/-- Where playing a log leaves the workflow incomplete, it has absorbed all of it. -/
theorem playSingly_eq_foldl {w : Workflow} {log : List Event}
    (h : (playSingly w log).isComplete = false) : playSingly w log = log.foldl absorb w := by
  induction log generalizing w with
  | nil => rfl
  | cons event rest ih =>
      rw [playSingly] at h ⊢
      split at h
      · rename_i hstops
        rw [(Bool.and_eq_true_iff.1 hstops).2] at h
        exact absurd h Bool.false_ne_true.symm
      · rename_i hgoes
        rw [if_neg hgoes]
        exact ih h

/-- From a workflow with its jobs loaded, playing a recording comes to an end. -/
structure PlaysOut (recording : Recording) (loaded : Workflow) (p : Poller Recording) : Prop where
  source_eq : p.source = recording
  workflow_eq : p.workflow = loaded
  /-- A poll after which the loop goes on has raised the last event to one that was recorded. -/
  raised : ∀ count, (pollOut (count + 1) p).state.isRunning = true →
    (pollOut count p).state.workflow.lastEvent < (pollOut (count + 1) p).state.workflow.lastEvent ∧
      ∃ event ∈ recording.events,
        event.id = some (pollOut (count + 1) p).state.workflow.lastEvent
  length_le : ∀ fuel, (pollOut fuel p).answer.length ≤ recording.ids.card + 1
  /-- The loop ends, whatever fuel it has beyond one poll for each id and another one. -/
  ends : ∀ fuel, recording.ids.card < fuel →
    pollOut fuel p = p.playOut ∧ (pollOut fuel p).state.isRunning = false
  /-- If that leaves the workflow incomplete, all events were applied, as in one go, and none of them
  would be applied now. -/
  absorbed : p.playOut.state.workflow.isComplete = false →
    p.playOut.state.workflow = (loaded.applyEvents recording.events none).state ∧
      (p.playOut.state.workflow.applyEvents recording.events none).answer.applied = 0

/-- **Playing out.**  The loop that replays a recording whose jobs load ends, after at most one poll
for each recorded id and another one, and leaves nothing behind unless the workflow is complete. -/
theorem playsOut_replay {report : LayeringReport} {jobs : List JobEntry} {events : List Event}
    (hclient : p.client = Recording.client) (hsource : p.source = .new jobs events)
    (hload : p.replay.answer = .ok report) :
    PlaysOut (.new jobs events) (p.workflow.load jobs).state p.replay.state := by
  have hordered := Recording.inOrder_events_new jobs events
  have hjobs : (Recording.new jobs events).jobs = jobs := rfl
  rw [replay, restart_answer hclient, hsource, hjobs] at hload
  have hincomplete := isComplete_load hload
  rw [replay, restart_state hclient (by rwa [hsource]), hsource, hjobs]
  generalize Recording.new jobs events = recording at hordered ⊢
  generalize (p.workflow.load jobs).state = loaded at hincomplete ⊢
  have hplays : (playing recording (some 1) p.maxFailures 0 loaded).Plays := ⟨rfl, rfl⟩
  have hahead := ahead_le_card_ids (playing recording (some 1) p.maxFailures 0 loaded)
  have hcard : recording.ids.card ≤ recording.events.length := recording.card_ids_le
  refine ⟨rfl, rfl, fun count hrunning => ?_, fun fuel => ?_, fun fuel hfuel => ?_,
    fun hunfinished => ?_⟩
  · obtain ⟨hlt, hmem⟩ := hplays.raised_pollOut hrunning
    rw [(hplays.pollOut_state count).2] at hmem
    exact ⟨hlt, Recording.mem_ids_iff.1 hmem⟩
  · exact (hplays.length_answer_pollOut_le fuel).trans (Nat.succ_le_succ hahead)
  · have hends := (hplays.pollOut_eq_of_ahead_lt (hahead.trans_lt hfuel) (hahead.trans_lt hfuel)).2
    refine ⟨(hplays.pollOut_eq_of_ahead_lt ?_ (hahead.trans_lt hfuel)).1, hends⟩
    exact Nat.lt_succ_of_le (hahead.trans hcard)
  · obtain ⟨-, hplayed⟩ : EndedWith (playing recording (some 1) p.maxFailures 0 loaded).playOut.state
        (playSingly loaded recording.events) :=
      pollOut_one hordered (List.nil_append _).symm rfl hincomplete le_rfl
    rw [hplayed] at hunfinished ⊢
    rw [playSingly_eq_foldl hunfinished, loaded.applyEvents_none_state,
      applied_applyEvents_eq_zero_iff]
    exact ⟨rfl, foldl_absorb_of_forall _ fun event hevent => absorb_foldl_of_mem hordered hevent⟩

/-- An event about a job of a name. -/
def jobEvent (id : Int) (change : JobChange) (name : String) : Event :=
  .new id (.job change) (.object [("job", .object [("name", .string name)])])

/-- Events of a run that breaks off: one that comes twice, one about a job that is not there, and one
without a percentage. -/
def brokenOff : List Event :=
  [jobEvent 5 .started "a", jobEvent 5 .complete "a", jobEvent 7 .started "z",
    .new 8 .workflowProgress (.object []), jobEvent 9 .complete "a",
    .new 9 .workflowProgress (.object [("workflowProgress", .integer 100)])]

/-- Two jobs, of which the second is never heard of. -/
def pair : List JobEntry :=
  [⟨"a", .blank, ["b"]⟩, ⟨"b", .blank, []⟩]

/-- A poller of these jobs and events. -/
def breakingOff : Poller Recording :=
  .new Recording.client (.new pair brokenOff) .default

theorem playsOut_breakingOff :
    PlaysOut (.new pair brokenOff) (breakingOff.workflow.load pair).state breakingOff.replay.state ∧
      breakingOff.replay.state.playOut.answer.length = 3 ∧
      breakingOff.replay.state.playOut.state.workflow.isComplete = false ∧
      breakingOff.replay.state.playOut.state.workflow.lastEvent = 9 := by
  have hload : breakingOff.replay.answer = .ok ⟨2, 0, []⟩ := by decide +kernel
  have hsorted : Recording.new pair brokenOff = ⟨pair, brokenOff⟩ := by
    rw [Recording.new, List.mergeSort_of_pairwise]
    decide
  refine ⟨playsOut_replay rfl rfl hload, ?_⟩
  rw [breakingOff, hsorted]
  decide +kernel

end Poller

end JobGraph
