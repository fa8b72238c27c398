import JobGraph.Polling.Playback
import JobGraph.Proofs.Workflow.Reloading
import JobGraph.Proofs.Workflow.Stepwise

/-!
# Replaying and jumping to the end

A recording is played from the loaded workflow, either one job event at a time or in one go, until
the poller stops or a poll leads nowhere.

* **Jumping.**  The first poll absorbs the whole log, and the second one leads nowhere.
* **Replaying.**  Every poll goes on to the next job event that is applied.  What was played before
  is absorbed again without effect, so the polls follow the log.  A poll that finds the workflow
  complete stops, whatever the log still holds.

Hence both ways end alike, unless something is still to be applied behind the job event that
completes the workflow.
-/

namespace JobGraph

open Workflow

namespace Recording

/-- Recorded events are ordered by their ids. -/
theorem inOrder_events_new (jobs : List JobEntry) (events : List Event) :
    InOrder (new jobs events).events := by
  have htrans : ∀ first second third : Event, precedes first second = true →
      precedes second third = true → precedes first third = true := by
    simp only [precedes, decide_eq_true_eq]
    exact fun _ _ _ => le_trans
  have htotal : ∀ first second : Event, (precedes first second || precedes second first) = true := by
    simp only [precedes, Bool.or_eq_true, decide_eq_true_eq]
    exact fun first second => le_total (sortKey first) (sortKey second)
  refine (List.pairwise_mergeSort htrans htotal events).imp fun {first second} hle i hi j hj => ?_
  rw [precedes, decide_eq_true_eq, sortKey, sortKey, Option.mem_def.1 hi, Option.mem_def.1 hj] at hle
  exact hle

theorem thinned_eventsAfter (recording : Recording) (after : Int) :
    Thinned after recording.events (recording.eventsAfter after) := by
  unfold eventsAfter
  induction recording.events with
  | nil => exact .nil
  | cons event rest ih =>
      rw [List.filter_cons]
      split
      · exact .keep event ih
      · rename_i hold
        cases hid : event.id with
        | none => simp [hid] at hold
        | some id => exact .leaveOut hid (by simpa [hid] using hold) ih

end Recording

namespace Poller

/-! ## Polls that lead nowhere -/

/-- A poll is taken to lead nowhere when it leaves the workflow as it was and puts nothing off. -/
theorem isStalled_poll_iff {Source : Type} (p : Poller Source) :
    p.isStalled p.poll.state p.poll.answer = true ↔
      p.poll.state.workflow = p.workflow ∧
        ∃ report, p.poll.answer = .polled report ∧ report.deferred = 0 := by
  unfold poll
  split
  · exact iff_of_false Bool.false_ne_true fun h => nomatch h.2
  · dsimp only
    split
    · exact iff_of_false Bool.false_ne_true fun h => nomatch h.2
    · rename_i events _
      simp only [isStalled, onWorkflow, Bool.and_eq_true, beq_iff_eq]
      refine and_congr ?_ ?_
      · refine ⟨fun hlast => ?_, fun hsame => congrArg lastEvent hsame⟩
        obtain ⟨count, hstate, -⟩ := p.workflow.applyEvents_state events p.maxEvents
        rw [hstate] at hlast ⊢
        exact foldl_absorb_eq_of_lastEvent_eq hlast
      · exact ⟨fun hdeferred => ⟨_, rfl, hdeferred⟩, fun ⟨_, hreport, hdeferred⟩ =>
          PollOutcome.polled.inj hreport ▸ hdeferred⟩

/-! ## Single polls -/

/-- A poller that is playing a recording. -/
def playing (recording : Recording) (limit : Option Nat) (maxFailures failures : Nat)
    (w : Workflow) : Poller Recording :=
  { client := Recording.client, source := recording, workflow := w, maxEvents := limit
    maxFailures, failures, isRunning := true }

/-- A poller that stopped with a workflow. -/
def EndedWith (p : Poller Recording) (w : Workflow) : Prop :=
  p.isRunning = false ∧ p.workflow = w

variable {recording : Recording} {limit : Option Nat} {maxFailures failures : Nat} {w : Workflow}

theorem pollOut_of_not_running {Source : Type} {p : Poller Source} (h : p.isRunning = false)
    (fuel : Nat) : pollOut fuel p = ⟨p, [], []⟩ := by
  cases fuel with
  | zero => rfl
  | succ fuel => rw [pollOut, h]; rfl

theorem pollOut_playing (fuel : Nat) :
    (pollOut (fuel + 1) (playing recording limit maxFailures failures w)).state =
      (pollOut fuel (playing recording limit maxFailures failures w).pollOrStop.state).state :=
  rfl

theorem pollOut_of_isComplete (h : w.isComplete = true) (fuel : Nat) :
    EndedWith (pollOut (fuel + 1) (playing recording limit maxFailures failures w)).state w := by
  have hpoll : (playing recording limit maxFailures failures w).pollOrStop.state =
      { playing recording limit maxFailures failures w with isRunning := false } := by
    simp [pollOrStop, poll, playing, h, stop, isStalled]
  rw [pollOut_playing, hpoll, pollOut_of_not_running rfl]
  exact ⟨rfl, rfl⟩

theorem pollOut_of_stalled {w' : Workflow} (h : w.isComplete = false)
    (hstate : (w.applyEvents (recording.eventsAfter w.lastEvent) limit).state = w')
    (hdeferred : (w.applyEvents (recording.eventsAfter w.lastEvent) limit).answer.deferred = 0)
    (hlast : w'.lastEvent = w.lastEvent) (fuel : Nat) :
    EndedWith (pollOut (fuel + 1) (playing recording limit maxFailures failures w)).state w' := by
  have hpoll : (playing recording limit maxFailures failures w).pollOrStop.state =
      { playing recording limit maxFailures 0 w' with isRunning := false } := by
    simp [pollOrStop, poll, playing, h, stop, isStalled, onWorkflow, Recording.client, hstate,
      hdeferred, hlast]
  rw [pollOut_playing, hpoll, pollOut_of_not_running rfl]
  exact ⟨rfl, rfl⟩

theorem pollOut_of_not_stalled {w' : Workflow} (h : w.isComplete = false)
    (hstate : (w.applyEvents (recording.eventsAfter w.lastEvent) limit).state = w')
    (hlast : w'.lastEvent ≠ w.lastEvent) (fuel : Nat) :
    (pollOut (fuel + 1) (playing recording limit maxFailures failures w)).state =
      (pollOut fuel (playing recording limit maxFailures 0 w')).state := by
  have hpoll : (playing recording limit maxFailures failures w).pollOrStop.state =
      playing recording limit maxFailures 0 w' := by
    simp [pollOrStop, poll, playing, h, isStalled, onWorkflow, Recording.client, hstate, hlast]
  rw [pollOut_playing, hpoll]

/-! ## The last polls -/

/-- Polling ends at once when the workflow has absorbed the whole log. -/
theorem pollOut_of_absorbed (hall : ∀ event ∈ recording.events, w.absorb event = w)
    (hlimit : limitReached limit 0 = false) (fuel : Nat) :
    EndedWith (pollOut (fuel + 1) (playing recording limit maxFailures failures w)).state w := by
  cases hcomplete : w.isComplete with
  | true => exact pollOut_of_isComplete hcomplete fuel
  | false =>
      have hbatch : ∀ event ∈ recording.eventsAfter w.lastEvent, w.absorb event = w :=
        fun event hevent => hall event (List.mem_filter.1 hevent).1
      obtain ⟨hstate, hdeferred⟩ :=
        applyEvents_of_firstJob?_eq_none hlimit (firstJob?_eq_none_of_forall hbatch)
      rw [foldl_absorb_of_forall w hbatch] at hstate
      exact pollOut_of_stalled hcomplete hstate hdeferred rfl fuel

/-- Polling ends after a poll that absorbs what is left of the log. -/
theorem pollOut_of_rest {w' : Workflow} (h : w.isComplete = false)
    (hstate : (w.applyEvents (recording.eventsAfter w.lastEvent) limit).state = w')
    (hdeferred : (w.applyEvents (recording.eventsAfter w.lastEvent) limit).answer.deferred = 0)
    (hall : ∀ event ∈ recording.events, w'.absorb event = w')
    (hlimit : limitReached limit 0 = false) {fuel : Nat} (hfuel : w' ≠ w → 0 < fuel) :
    EndedWith (pollOut (fuel + 1) (playing recording limit maxFailures failures w)).state w' := by
  by_cases hlast : w'.lastEvent = w.lastEvent
  · exact pollOut_of_stalled h hstate hdeferred hlast fuel
  · obtain ⟨fuel, rfl⟩ : ∃ n, fuel = n + 1 :=
      Nat.exists_eq_succ_of_ne_zero (hfuel fun heq => hlast (congrArg lastEvent heq)).ne'
    rw [pollOut_of_not_stalled h hstate hlast]
    exact pollOut_of_absorbed hall hlimit fuel

/-! ## Whole runs -/

/-- With all events there are, polling absorbs the log. -/
theorem pollOut_none (hordered : InOrder recording.events) (h : w.isComplete = false) :
    EndedWith
      (pollOut (recording.events.length + 1) (playing recording none maxFailures failures w)).state
      (recording.events.foldl absorb w) := by
  have hthinned := recording.thinned_eventsAfter w.lastEvent
  refine pollOut_of_rest h ?_ (deferred_takeEvents_none w .empty _)
    (fun event hevent => absorb_foldl_of_mem hordered hevent) rfl fun hne => ?_
  · rw [applyEvents_none_state, hthinned.foldl_absorb le_rfl]
  · refine List.length_pos_of_ne_nil fun hnil => hne ?_
    rw [hnil]
    rfl

/-- One event at a time, polling plays the log behind what was played before. -/
theorem pollOut_one {start : Workflow} (hordered : InOrder recording.events) {fuel : Nat}
    {done rest : List Event} (hlog : recording.events = done ++ rest)
    (hdone : w = done.foldl absorb start) (h : w.isComplete = false) (hfuel : rest.length ≤ fuel) :
    EndedWith (pollOut (fuel + 1) (playing recording (some 1) maxFailures failures w)).state
      (playSingly w rest) := by
  induction fuel generalizing w done rest failures with
  | zero =>
      obtain rfl : rest = [] := List.eq_nil_of_length_eq_zero (Nat.le_zero.1 hfuel)
      rw [List.append_nil] at hlog
      refine pollOut_of_absorbed (fun event hevent => ?_) rfl 0
      rw [hdone]
      rw [hlog] at hordered hevent
      exact absorb_foldl_of_mem hordered hevent
  | succ fuel ih =>
      have hagain : ∀ event ∈ done, w.absorb event = w := by
        intro event hevent
        rw [hdone]
        refine absorb_foldl_of_mem (hordered.sublist ?_) hevent
        rw [hlog]
        exact List.sublist_append_left done rest
      have hthinned := recording.thinned_eventsAfter w.lastEvent
      have hfirst := hthinned.map_fst_firstJob? le_rfl
      rw [hlog, firstJob?_append hagain] at hfirst
      cases hfound : w.firstJob? rest with
      | none =>
          -- the poll absorbs the rest of the log
          rw [hfound, Option.map_none, Option.map_eq_none_iff] at hfirst
          have hlimit : limitReached (some 1) 0 = false := rfl
          obtain ⟨hstate, hdeferred⟩ := applyEvents_of_firstJob?_eq_none hlimit hfirst
          rw [hthinned.foldl_absorb le_rfl, hlog, List.foldl_append,
            foldl_absorb_of_forall w hagain] at hstate
          rw [playSingly_of_firstJob?_eq_none hfound]
          refine pollOut_of_rest h hstate hdeferred (fun event hevent => ?_) hlimit fun _ =>
            Nat.succ_pos fuel
          rw [hdone, ← List.foldl_append, ← hlog]
          exact absorb_foldl_of_mem hordered hevent
      | some found =>
          -- the poll goes on to the next job event that is applied
          obtain ⟨after, left⟩ := found
          rw [hfound, Option.map_some, Option.map_eq_some_iff] at hfirst
          obtain ⟨⟨found, others⟩, hbatch, rfl⟩ := hfirst
          obtain ⟨before, event, rfl, hjob, hafter⟩ := firstJob?_eq_some hfound
          have hstate := applyEvents_one_of_firstJob?_eq_some hbatch
          have hlast : found.lastEvent ≠ w.lastEvent := by
            obtain ⟨id, -, hlt, hid⟩ := lastEvent_of_appliesJob hjob
            have hle := lastEvent_le_foldl_absorb w before
            rw [← hafter] at hid
            change found.lastEvent = id at hid
            omega
          rw [pollOut_of_not_stalled h hstate hlast, playSingly_of_firstJob?_eq_some hfound]
          rw [List.length_append, List.length_cons] at hfuel
          cases hcomplete : found.isComplete with
          | true =>
              rw [if_pos rfl]
              exact pollOut_of_isComplete hcomplete fuel
          | false =>
              rw [if_neg Bool.false_ne_true]
              have hnext : recording.events = (done ++ (before ++ [event])) ++ left := by
                rw [hlog]
                simp
              refine ih hnext ?_ hcomplete (by omega)
              rw [List.foldl_append, List.foldl_append, ← hdone]
              exact hafter

/-! ## Restarting -/

/-- What a job list makes of a workflow depends on its id and its options only. -/
theorem isComplete_load {entries : List JobEntry} {report : LayeringReport}
    (hload : (w.load entries).answer = .ok report) : (w.load entries).state.isComplete = false := by
  unfold load at hload ⊢
  split at hload
  · exact absurd hload nofun
  · rfl

variable {p q : Poller Recording} {report : LayeringReport}

theorem stop_state {Source : Type} (p : Poller Source) : p.stop.state = p.halt := by
  unfold stop halt
  split
  · rfl
  · rename_i hrunning
    rw [Bool.not_eq_true] at hrunning
    rw [← hrunning]

theorem loadJobs_halt (hclient : p.client = Recording.client) :
    p.halt.loadJobs = p.halt.onWorkflow fun w => w.load p.source.jobs := by
  unfold loadJobs halt
  rw [hclient]
  rfl

theorem restart_answer (hclient : p.client = Recording.client) (limit : Option Nat) :
    (p.restart limit).answer = (p.workflow.load p.source.jobs).answer := by
  simp only [restart, stop_state, loadJobs_halt hclient]
  split
  · rename_i error heq
    exact heq.symm
  · rename_i report heq
    exact heq.symm

/-- A poller that is restarted plays its recording from the workflow with the jobs loaded. -/
theorem restart_state (hclient : p.client = Recording.client) {limit : Option Nat}
    (hload : (p.workflow.load p.source.jobs).answer = .ok report) :
    (p.restart limit).state =
      playing p.source limit p.maxFailures 0 (p.workflow.load p.source.jobs).state := by
  have hanswer : (p.halt.onWorkflow fun w => w.load p.source.jobs).answer = .ok report := hload
  simp only [restart, stop_state, loadJobs_halt hclient]
  rw [hanswer]
  simp [start, onWorkflow, halt, playing, hclient]

/-! ## Both ways to the end -/

/-- Two workflows with the same jobs, progress and last event. -/
def SameOutcome (w w' : Workflow) : Prop :=
  w.jobs = w'.jobs ∧ w.progress = w'.progress ∧ w.lastEvent = w'.lastEvent

/-- Where a log leads from a loaded workflow, one job event at a time and in one go. -/
structure PlayedBack (loaded : Workflow) (log : List Event) (replayed jumped : Poller Recording) :
    Prop where
  stopped : replayed.isRunning = false ∧ jumped.isRunning = false
  /-- In one go all events are applied. -/
  jumped_eq : jumped.workflow = (loaded.applyEvents log none).state
  /-- One at a time they are applied up to the first job event that leaves the workflow complete,
  and the outcome is the same exactly when nothing behind that event would be applied. -/
  replayed_eq : ∃ count, StopsAfter loaded log count ∧
    replayed.workflow = (loaded.applyEvents (log.take count) none).state ∧
    (SameOutcome replayed.workflow jumped.workflow ↔
      (replayed.workflow.applyEvents (log.drop count) none).answer.applied = 0)

/-- **Playing a recording.**  Two pollers of one recording, one that replays it and one that jumps to
its end, both stop.  The outcome is the same unless an event is still to be applied behind the job
event that leaves the workflow complete. -/
theorem playedBack_of_replay {jobs : List JobEntry} {events : List Event}
    (hp : p.client = Recording.client) (hq : q.client = Recording.client)
    (hpSource : p.source = .new jobs events) (hqSource : q.source = .new jobs events)
    (hid : q.workflow.id = p.workflow.id) (hoptions : q.workflow.options = p.workflow.options)
    (hload : p.replay.answer = .ok report) :
    q.jumpToEnd.answer = .ok report ∧
      q.jumpToEnd.state.workflow = p.replay.state.workflow ∧
      PlayedBack p.replay.state.workflow (Recording.new jobs events).events
        p.replay.state.playOut.state q.jumpToEnd.state.playOut.state := by
  have hordered := Recording.inOrder_events_new jobs events
  rw [replay, restart_answer hp] at hload
  have hsame := load_eq_of_id_eq hid hoptions hload
  have hincomplete := isComplete_load hload
  rw [hpSource] at hload hsame hincomplete
  rw [replay, restart_state hp (by rwa [hpSource]), jumpToEnd,
    restart_state hq (by rwa [hqSource, hsame]), restart_answer hq, hpSource, hqSource, hsame]
  generalize Recording.new jobs events = recording at hordered hload hincomplete ⊢
  generalize (p.workflow.load recording.jobs).state = loaded at hincomplete ⊢
  have hnil : recording.events = [] ++ recording.events := rfl
  obtain ⟨hstopped, hreplayed⟩ : EndedWith
      (playing recording (some 1) p.maxFailures 0 loaded).playOut.state
      (playSingly loaded recording.events) :=
    pollOut_one hordered hnil rfl hincomplete le_rfl
  obtain ⟨hstopped', hjumped⟩ : EndedWith (playing recording none q.maxFailures 0 loaded).playOut.state
      (recording.events.foldl absorb loaded) :=
    pollOut_none hordered hincomplete
  obtain ⟨count, hstops, hplayed⟩ := exists_playSingly_eq loaded recording.events
  refine ⟨hload, rfl, ⟨hstopped, hstopped'⟩, ?_, count, hstops, ?_, ?_⟩
  · rw [hjumped]
    exact (loaded.applyEvents_none_state recording.events).symm
  · rw [hreplayed, hplayed]
    exact (loaded.applyEvents_none_state (recording.events.take count)).symm
  · -- what is applied behind the stop raises the last event
    have hrest : recording.events.foldl absorb loaded =
        (recording.events.drop count).foldl absorb (playSingly loaded recording.events) := by
      rw [hplayed, ← List.foldl_append, List.take_append_drop]
    rw [hreplayed, hjumped, applied_applyEvents_eq_zero_iff, hrest]
    constructor
    · rintro ⟨-, -, hlast⟩
      exact foldl_absorb_eq_of_lastEvent_eq hlast.symm
    · intro heq
      rw [heq]
      exact ⟨rfl, rfl, rfl⟩

/-- A job that starts again after it was done, and with it the whole workflow. -/
def relapse : List Event :=
  let job : Json := .object [("job", .object [("name", .string "a")])]
  [.new 1 .workflowProgress (.object [("workflowProgress", .integer 100)]),
    .new 2 (.job .complete) job, .new 3 (.job .started) job]

/-- A poller of a single job with these events. -/
def relapsing : Poller Recording :=
  .new Recording.client (.new [⟨"a", .blank, []⟩] relapse) .default

theorem playedBack_relapsing :
    PlayedBack relapsing.replay.state.workflow (Recording.new [⟨"a", .blank, []⟩] relapse).events
      relapsing.replay.state.playOut.state relapsing.jumpToEnd.state.playOut.state := by
  obtain ⟨report, hreport⟩ : ∃ report, relapsing.replay.answer = .ok report := by
    refine ⟨⟨1, 0, []⟩, ?_⟩
    decide +kernel
  exact (playedBack_of_replay rfl rfl rfl rfl rfl rfl hreport).2.2

/-- Replaying stops at the event that completes the workflow, and jumping to the end goes on. -/
theorem not_sameOutcome_relapsing :
    relapsing.replay.state.playOut.state.isRunning = false ∧
      relapsing.jumpToEnd.state.playOut.state.isRunning = false ∧
      relapsing.replay.state.playOut.state.workflow.lastEvent = 2 ∧
      relapsing.jumpToEnd.state.playOut.state.workflow.lastEvent = 3 ∧
      ¬ SameOutcome relapsing.replay.state.playOut.state.workflow
        relapsing.jumpToEnd.state.playOut.state.workflow := by
  have hsorted : (Recording.new [⟨"a", .blank, []⟩] relapse) = ⟨[⟨"a", .blank, []⟩], relapse⟩ := by
    rw [Recording.new, List.mergeSort_of_pairwise]
    decide
  have hreplayed : relapsing.replay.state.playOut.state.workflow.lastEvent = 2 := by
    rw [relapsing, hsorted]
    decide +kernel
  have hjumped : relapsing.jumpToEnd.state.playOut.state.workflow.lastEvent = 3 := by
    rw [relapsing, hsorted]
    decide +kernel
  refine ⟨?_, ?_, hreplayed, hjumped, fun hsame => ?_⟩
  · rw [relapsing, hsorted]
    decide +kernel
  · rw [relapsing, hsorted]
    decide +kernel
  · have hlast := hsame.2.2
    rw [hreplayed, hjumped] at hlast
    exact absurd hlast (by decide)

end Poller

end JobGraph
