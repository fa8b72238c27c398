import JobGraph.Proofs.Polling.ClientFailures

/-!
# What listeners hear of polling

A poller tells when polling starts and stops, and what each poll came to.  Nothing a workflow does
by itself says any of this, and a poller that is stopped from outside does not say so either: that
is what `AllUndisturbed` leaves out, together with runs that would go on for ever.

* **Turns.**  Starts and stops take turns, a start first, and the poller is running exactly when the
  last of them was a start.  While a run is going on this holds as well.
* **Polls.**  A run makes as many polls as it tells the outcome of.
* **Completion.**  It is told at most once in a run, as the last thing, and exactly when the run
  ends because the workflow is complete.
-/

namespace JobGraph

namespace Notice

/-- Whether a notice tells that polling starts or stops. -/
def marksPolling : Notice → Bool
  | .pollingStarted | .pollingStopped => true
  | _ => false

/-- Whether a notice tells what a poll came to. -/
def endsPoll : Notice → Bool
  | .eventsPolled _ _ | .pollFailed _ _ | .workflowComplete => true
  | _ => false

/-- Whether a notice has nothing to do with polling. -/
def isQuiet (notice : Notice) : Bool :=
  !notice.marksPolling && !notice.endsPoll

theorem isQuiet_iff {notice : Notice} :
    notice.isQuiet = true ↔ notice.marksPolling = false ∧ notice.endsPoll = false := by
  rw [isQuiet, Bool.and_eq_true, Bool.not_eq_true', Bool.not_eq_true']

end Notice

/-! ## Workflows by themselves -/

namespace Workflow

/-- What is heard of an operation. -/
def noticesOf (w : Workflow) : Operation → List Notice
  | .load entries => (w.load entries).notices
  | .applyEvents events limit => (w.applyEvents events limit).notices
  | .applyEvent event => (w.applyEvent event).notices
  | .updateJob update => (w.updateJob update).notices
  | .setProgress progress => (w.setProgress progress).notices
  | .select ref => (w.select ref).notices
  | .hover ref => (w.hover ref).notices

theorem isQuiet_load (w : Workflow) (entries : List JobEntry) :
    (w.load entries).notices.all Notice.isQuiet := by
  unfold load
  split <;> rfl

theorem isQuiet_applyEvent (w : Workflow) (event : Event) :
    (w.applyEvent event).notices.all Notice.isQuiet := by
  unfold applyEvent applyJobChange applyProgress setProgress
  dsimp only
  repeat' split
  all_goals rfl

theorem isQuiet_takeEvent (w : Workflow) (limit : Option Nat) (jobEvents : Nat) (event : Event) :
    (w.takeEvent limit jobEvents event).notices.all Notice.isQuiet := by
  unfold takeEvent
  dsimp only
  split
  · rfl
  · split
    · rfl
    · split
      · rfl
      · exact w.isQuiet_applyEvent event

theorem isQuiet_takeEvents (w : Workflow) (limit : Option Nat) (report : BatchReport)
    (events : List Event) : (takeEvents limit w report events).notices.all Notice.isQuiet := by
  induction events generalizing w report with
  | nil => rfl
  | cons event rest ih =>
      rw [takeEvents, List.all_append, w.isQuiet_takeEvent, Bool.true_and]
      exact ih _ _

theorem isQuiet_noticesOf (w : Workflow) (operation : Operation) :
    (w.noticesOf operation).all Notice.isQuiet := by
  cases operation with
  | load entries => exact w.isQuiet_load entries
  | applyEvents events limit => exact w.isQuiet_takeEvents limit .empty events
  | applyEvent event => exact w.isQuiet_applyEvent event
  | updateJob update =>
      change (w.updateJob update).notices.all Notice.isQuiet
      unfold updateJob
      repeat' split
      all_goals rfl
  | setProgress progress => rfl
  | select ref =>
      change (w.select ref).notices.all Notice.isQuiet
      unfold select
      split <;> rfl
  | hover ref =>
      change (w.hover ref).notices.all Notice.isQuiet
      unfold hover
      repeat' split
      all_goals rfl

end Workflow

namespace Poller

variable {Source : Type}

/-! ## Turns -/

/-- The starts and stops among some notices. -/
def turns (notices : List Notice) : List Notice :=
  notices.filter Notice.marksPolling

/-- Starts and stops take turns, a start first. -/
structure Alternates (notices : List Notice) : Prop where
  isChain : (turns notices).IsChain (· ≠ ·)
  first : ∀ turn ∈ (turns notices).head?, turn = .pollingStarted

theorem turns_append_of_isQuiet {quiet : List Notice} (h : quiet.all Notice.isQuiet)
    (notices : List Notice) : turns (notices ++ quiet) = turns notices := by
  have hnone : turns quiet = [] := by
    refine List.filter_eq_nil_iff.2 fun notice hnotice => ?_
    exact ne_true_of_eq_false (Notice.isQuiet_iff.1 (List.all_eq_true.1 h _ hnotice)).1
  rw [turns, List.filter_append, ← turns, ← turns, hnone, List.append_nil]

theorem turns_concat {turn : Notice} (h : turn.marksPolling = true) (notices : List Notice) :
    turns (notices ++ [turn]) = turns notices ++ [turn] := by
  rw [turns, List.filter_append, List.filter_cons_of_pos h]
  rfl

/-- A turn differs from the one before it, and only a start may come first. -/
theorem Alternates.concat {notices : List Notice} (h : Alternates notices) {turn : Notice}
    (hturn : turn.marksPolling = true) (hlast : (turns notices).getLast? ≠ some turn)
    (hfirst : turns notices = [] → turn = .pollingStarted) : Alternates (notices ++ [turn]) := by
  refine ⟨?_, ?_⟩
  · rw [turns_concat hturn, List.isChain_append]
    refine ⟨h.isChain, List.isChain_singleton turn, fun last hmem other hother => ?_⟩
    obtain rfl : turn = other := Option.some.inj hother
    rintro rfl
    exact hlast hmem
  · rw [turns_concat hturn]
    cases hturns : turns notices with
    | nil =>
        rintro _ ⟨⟩
        exact hfirst hturns
    | cons first rest =>
        rw [List.cons_append, List.head?_cons, ← List.head?_cons (l := rest), ← hturns]
        exact h.first

/-- What was heard of a poller so far tells whether it is running. -/
structure Told (notices : List Notice) (p : Poller Source) : Prop where
  alternates : Alternates notices
  running_iff : p.isRunning = true ↔ (turns notices).getLast? = some .pollingStarted

namespace Told

variable {notices : List Notice} {p : Poller Source}

/-- Whatever leaves the poller running or stopped. -/
theorem congr (h : Told notices p) {q : Poller Source} (hrunning : q.isRunning = p.isRunning) :
    Told notices q :=
  ⟨h.alternates, hrunning ▸ h.running_iff⟩

/-- Whatever is heard that is not a turn. -/
theorem append (h : Told notices p) {others : List Notice}
    (hturns : turns (notices ++ others) = turns notices) : Told (notices ++ others) p := by
  refine ⟨⟨?_, ?_⟩, ?_⟩
  · rw [hturns]
    exact h.alternates.isChain
  · rw [hturns]
    exact h.alternates.first
  · rw [hturns]
    exact h.running_iff

theorem append_nil (h : Told notices p) : Told (notices ++ []) p := by
  rwa [List.append_nil]

theorem start (h : Told notices p) (maxEvents : Option Nat) :
    Told (notices ++ (p.start maxEvents).notices) (p.start maxEvents).state := by
  unfold Poller.start
  split
  · exact h.append_nil
  · rename_i hstopped
    constructor
    · apply h.alternates.concat rfl
      · exact fun hlast => hstopped (h.running_iff.2 hlast)
      · exact fun _ => rfl
    · rw [turns_concat rfl, List.getLast?_concat]
      exact iff_of_true rfl rfl

theorem stop (h : Told notices p) : Told (notices ++ p.stop.notices) p.stop.state := by
  unfold Poller.stop
  split
  · rename_i hrunning
    have hlast := h.running_iff.1 hrunning
    constructor
    · apply h.alternates.concat rfl
      · rw [hlast]
        exact nofun
      · intro hnil
        rw [hnil] at hlast
        exact absurd hlast nofun
    · rw [turns_concat rfl, List.getLast?_concat]
      exact iff_of_false Bool.false_ne_true nofun
  · exact h.append_nil

theorem loadJobs (h : Told notices p) : Told (notices ++ p.loadJobs.notices) p.loadJobs.state := by
  have hloaded : Told notices p.loadJobs.state := h.congr p.isRunning_loadJobs
  refine hloaded.append (turns_append_of_isQuiet ?_ notices)
  unfold Poller.loadJobs
  dsimp only
  split
  · rfl
  · exact p.workflow.isQuiet_load _

/-- Telling the outcome of a poll is not a turn. -/
theorem concat (h : Told notices p) {ending : Notice} (hending : ending.marksPolling = false) :
    Told (notices ++ [ending]) p := by
  refine h.append ?_
  rw [turns, List.filter_append, List.filter_cons_of_neg (ne_true_of_eq_false hending)]
  exact List.append_nil _

/-- A failure too many stops the poller before the failure is told. -/
theorem countFailure (h : Told notices p) (error : ClientError) :
    Told (notices ++ (p.countFailure error).notices) (p.countFailure error).state := by
  have hcounted : Told notices { p with failures := (p.failures + 1) % UInt32.size } :=
    h.congr rfl
  unfold Poller.countFailure
  dsimp only
  rw [← List.append_assoc]
  refine concat ?_ rfl
  split
  · exact hcounted.stop
  · exact hcounted.append_nil

theorem poll (h : Told notices p) : Told (notices ++ p.poll.notices) p.poll.state := by
  have hasked : Told notices { p with
      source := (p.client.fetchEvents p.source p.workflow.id p.workflow.lastEvent).2 } :=
    h.congr rfl
  unfold Poller.poll
  split
  · dsimp only
    rw [← List.append_assoc]
    exact h.stop.concat rfl
  · dsimp only
    split
    · exact hasked.countFailure _
    · rename_i events _
      dsimp only
      rw [← List.append_assoc]
      -- applying events is heard, but it is no turn
      have happlied := turns_append_of_isQuiet
        (p.workflow.isQuiet_takeEvents p.maxEvents .empty events) notices
      exact congr (p := p) ((h.append happlied).concat rfl) rfl

theorem pollTimes (h : Told notices p) (count : Nat) :
    Told (notices ++ (pollTimes count p).notices) (pollTimes count p).state := by
  induction count generalizing notices p with
  | zero => exact h.append_nil
  | succ count ih =>
      unfold Poller.pollTimes
      split
      · exact h.append_nil
      · dsimp only
        rw [← List.append_assoc]
        exact ih h.poll

theorem restart (h : Told notices p) (maxEvents : Option Nat) :
    Told (notices ++ (p.restart maxEvents).notices) (p.restart maxEvents).state := by
  have hloaded := h.stop.loadJobs
  rw [List.append_assoc] at hloaded
  unfold Poller.restart
  dsimp only
  split
  · exact hloaded
  · dsimp only
    rw [← List.append_assoc]
    exact hloaded.start maxEvents

/-- A run, as long as it goes on. -/
theorem run (h : Told notices p) (limit : Nat) :
    Told (notices ++ (p.run limit).notices)
      (Poller.pollTimes (max limit 1) (p.start p.maxEvents).state).state := by
  have hpolled := (h.start p.maxEvents).pollTimes (max limit 1)
  rwa [List.append_assoc] at hpolled

end Told

/-! ## Undisturbed operations -/

/-- What is heard of an operation. -/
def noticesOf (p : Poller Source) : Operation → List Notice
  | .onWorkflow operation => p.workflow.noticesOf operation
  | .loadJobs => p.loadJobs.notices
  | .start maxEvents => (p.start maxEvents).notices
  | .stop => p.stop.notices
  | .halt => []
  | .poll => p.poll.notices
  | .run limit => (p.run limit).notices
  | .replay => p.replay.notices
  | .jumpToEnd => p.jumpToEnd.notices

/-- What is heard of a list of operations. -/
def allNotices (p : Poller Source) : List Operation → List Notice
  | [] => []
  | operation :: rest => p.noticesOf operation ++ (p.perform operation).allNotices rest

/-- An operation is not cut short from outside: runs return by themselves. -/
def Undisturbed (p : Poller Source) : Operation → Prop
  | .halt => False
  | .run limit => p.Returns limit
  | _ => True

/-- Every one of some operations is undisturbed. -/
def AllUndisturbed (p : Poller Source) : List Operation → Prop
  | [] => True
  | operation :: rest => p.Undisturbed operation ∧ (p.perform operation).AllUndisturbed rest

namespace Told

variable {notices : List Notice} {p : Poller Source}

/-- One undisturbed operation keeps the turns. -/
theorem operate (h : Told notices p) {operation : Operation} (hfree : p.Undisturbed operation) :
    Told (notices ++ p.noticesOf operation) (p.perform operation) := by
  cases operation with
  | onWorkflow operation =>
      have hdone : Told notices (p.perform (.onWorkflow operation)) := h.congr rfl
      exact hdone.append (turns_append_of_isQuiet (p.workflow.isQuiet_noticesOf operation) notices)
  | loadJobs => exact h.loadJobs
  | start maxEvents => exact h.start maxEvents
  | stop => exact h.stop
  | halt => exact hfree.elim
  | poll => exact h.poll
  | run limit => exact (h.run limit).congr (Eq.symm hfree)
  | replay => exact h.restart (some 1)
  | jumpToEnd => exact h.restart none

/-- All of them do. -/
theorem performAll (h : Told notices p) {operations : List Operation}
    (hfree : p.AllUndisturbed operations) :
    Told (notices ++ p.allNotices operations) (p.performAll operations) := by
  induction operations generalizing notices p with
  | nil => exact h.append_nil
  | cons operation rest ih =>
      rw [allNotices, ← List.append_assoc]
      exact ih (h.operate hfree.1) hfree.2

end Told

/-! ## Polls -/

theorem countP_endsPoll_of_isQuiet {quiet : List Notice} (h : quiet.all Notice.isQuiet) :
    quiet.countP Notice.endsPoll = 0 := by
  refine List.countP_eq_zero.2 fun notice hnotice => ?_
  exact ne_true_of_eq_false (Notice.isQuiet_iff.1 (List.all_eq_true.1 h _ hnotice)).2

theorem countP_endsPoll_start (p : Poller Source) (maxEvents : Option Nat) :
    (p.start maxEvents).notices.countP Notice.endsPoll = 0 := by
  unfold start
  split <;> rfl

theorem countP_endsPoll_stop (p : Poller Source) : p.stop.notices.countP Notice.endsPoll = 0 := by
  unfold stop
  split <;> rfl

/-- A poll tells once what it came to, as the last thing. -/
theorem exists_notices_poll (p : Poller Source) :
    ∃ before ending, p.poll.notices = before ++ [ending] ∧
      before.countP Notice.endsPoll = 0 ∧ ending.endsPoll = true ∧
      (ending = .workflowComplete ↔ p.poll.answer = .complete) := by
  unfold poll
  split
  · exact ⟨_, _, rfl, p.countP_endsPoll_stop, rfl, iff_of_true rfl rfl⟩
  · dsimp only
    split
    · refine ⟨_, _, rfl, ?_, rfl, iff_of_false nofun nofun⟩
      split
      · exact countP_endsPoll_stop _
      · rfl
    · rename_i events _
      exact ⟨_, _, rfl, countP_endsPoll_of_isQuiet (p.workflow.isQuiet_takeEvents _ .empty events),
        rfl, iff_of_false nofun nofun⟩

theorem isRunning_of_complete {p : Poller Source} (h : p.poll.answer = .complete) :
    p.poll.state.isRunning = false := by
  rcases p.poll_outcomes with ⟨-, -, -, hstate⟩ | ⟨_, -, hanswer, -⟩ | ⟨_, _, _, -, hanswer, -⟩
  · rw [hstate]
    rfl
  · exact absurd (h.symm.trans hanswer) nofun
  · exact absurd (h.symm.trans hanswer) nofun

/-- A poll that stops the poller has found the workflow complete, or leaves it incomplete. -/
theorem isComplete_of_stopped_by_poll {p : Poller Source} (hrunning : p.isRunning = true)
    (hstopped : p.poll.state.isRunning = false) :
    p.poll.state.workflow.isComplete = true ↔ p.poll.answer = .complete := by
  rcases p.poll_outcomes with ⟨hcomplete, -, hanswer, hstate⟩ | ⟨source, hfailed, hanswer, hstate⟩ |
    ⟨source, workflow, report, -, -, hstate⟩
  · rw [hstate, hanswer]
    exact iff_of_true hcomplete rfl
  · rw [hstate, hanswer]
    refine iff_of_false (fun hcomplete => ?_) nofun
    rw [pollContacts, if_pos hcomplete] at hfailed
    exact List.cons_ne_nil _ _ hfailed.symm
  · rw [hstate] at hstopped
    exact absurd (hrunning.symm.trans hstopped) Bool.false_ne_true.symm

/-- What is heard of polls made while running. -/
structure PollsHeard (notices : List Notice) (outcomes : List PollOutcome) : Prop where
  /-- Each poll is told about once. -/
  length_eq : outcomes.length = notices.countP Notice.endsPoll
  count_le : notices.count .workflowComplete ≤ 1
  /-- Completion is told by the last poll only. -/
  mem_iff : .workflowComplete ∈ notices ↔ outcomes.getLast? = some .complete
  getLast?_of_mem : .workflowComplete ∈ notices → notices.getLast? = some .workflowComplete

theorem not_mem_of_countP_eq_zero {before : List Notice}
    (h : before.countP Notice.endsPoll = 0) : .workflowComplete ∉ before :=
  fun hmem => List.countP_eq_zero.1 h _ hmem rfl

/-- Whether the last poll finds the workflow complete is not decided by one that did not. -/
theorem getLast?_cons_eq_complete_iff {outcome : PollOutcome} (h : outcome ≠ .complete)
    (outcomes : List PollOutcome) :
    (outcome :: outcomes).getLast? = some .complete ↔ outcomes.getLast? = some .complete := by
  rw [List.getLast?_cons]
  cases outcomes.getLast? with
  | none => simp [h]
  | some last => simp

namespace PollsHeard

variable {before notices : List Notice} {outcomes : List PollOutcome}

theorem nil : PollsHeard [] [] :=
  ⟨rfl, Nat.zero_le 1, iff_of_false nofun nofun, nofun⟩

/-- The poll of a complete workflow is the last one. -/
theorem complete (hbefore : before.countP Notice.endsPoll = 0) :
    PollsHeard (before ++ [.workflowComplete]) [.complete] := by
  have hnot := not_mem_of_countP_eq_zero hbefore
  refine ⟨?_, ?_, iff_of_true List.mem_concat_self rfl, fun _ => List.getLast?_concat⟩
  · rw [List.countP_append, hbefore]
    rfl
  · rw [List.count_append, List.count_eq_zero_of_not_mem hnot]
    rfl

/-- A poll of an incomplete workflow, and those after it. -/
theorem cons (h : PollsHeard notices outcomes) (hbefore : before.countP Notice.endsPoll = 0)
    {ending : Notice} (hending : ending.endsPoll = true) (hne : ending ≠ .workflowComplete)
    {outcome : PollOutcome} (houtcome : outcome ≠ .complete) :
    PollsHeard (before ++ [ending] ++ notices) (outcome :: outcomes) := by
  have hnot : Notice.workflowComplete ∉ before ++ [ending] := by
    rw [List.mem_append, List.mem_singleton]
    rintro (hmem | rfl)
    · exact not_mem_of_countP_eq_zero hbefore hmem
    · exact hne rfl
  have hmem : .workflowComplete ∈ before ++ [ending] ++ notices ↔ .workflowComplete ∈ notices := by
    rw [List.mem_append, or_iff_right hnot]
  refine ⟨?_, ?_, ?_, fun hcomplete => ?_⟩
  · rw [List.countP_append, List.countP_append, hbefore, List.countP_singleton, if_pos hending,
      ← h.length_eq, List.length_cons]
    omega
  · rw [List.count_append, List.count_eq_zero_of_not_mem hnot, Nat.zero_add]
    exact h.count_le
  · rw [hmem, h.mem_iff, getLast?_cons_eq_complete_iff houtcome]
  · rw [List.getLast?_append, h.getLast?_of_mem (hmem.1 hcomplete)]
    rfl

end PollsHeard

theorem pollsHeard_pollTimes (count : Nat) (p : Poller Source) :
    PollsHeard (pollTimes count p).notices (pollTimes count p).answer := by
  induction count generalizing p with
  | zero => exact .nil
  | succ count ih =>
      unfold pollTimes
      split
      · exact .nil
      · obtain ⟨before, ending, hnotices, hbefore, hending, hiff⟩ := p.exists_notices_poll
        dsimp only
        rw [hnotices]
        by_cases hcomplete : p.poll.answer = .complete
        · -- the poller has stopped, so nothing is heard behind this poll
          rw [hiff.2 hcomplete, pollTimes_of_not_running (isRunning_of_complete hcomplete),
            hcomplete, List.append_nil]
          exact .complete hbefore
        · exact (ih p.poll.state).cons hbefore hending (hiff.not.2 hcomplete) hcomplete

/-- The last poll finds the workflow complete exactly when polling stops and leaves it complete. -/
theorem getLast?_pollTimes_iff {p : Poller Source} (hrunning : p.isRunning = true) (count : Nat) :
    (pollTimes count p).answer.getLast? = some .complete ↔
      (pollTimes count p).state.isRunning = false ∧
        (pollTimes count p).state.workflow.isComplete = true := by
  induction count generalizing p with
  | zero => exact iff_of_false nofun fun h => absurd (hrunning.symm.trans h.1) nofun
  | succ count ih =>
      rw [pollTimes, hrunning]
      change (p.poll.answer :: (pollTimes count p.poll.state).answer).getLast? = some .complete ↔
        (pollTimes count p.poll.state).state.isRunning = false ∧
          (pollTimes count p.poll.state).state.workflow.isComplete = true
      -- polling goes on exactly when this poll has not stopped it
      cases hgoes : p.poll.state.isRunning with
      | false =>
          rw [pollTimes_of_not_running hgoes, isComplete_of_stopped_by_poll hrunning hgoes]
          simp [hgoes]
      | true =>
          have hnot : p.poll.answer ≠ .complete := fun hcomplete =>
            absurd (hgoes.symm.trans (isRunning_of_complete hcomplete)) nofun
          rw [getLast?_cons_eq_complete_iff hnot]
          exact ih hgoes

/-! ## Every run -/

/-- What is heard of a poller so far, and of a run that comes next. -/
structure PollingTold (notices : List Notice) (p : Poller Source) : Prop extends
    Told notices p where
  /-- Starts and stops take turns while the run goes on as well. -/
  run_told : ∀ limit, Told (notices ++ (p.run limit).notices)
    (pollTimes (max limit 1) (p.start p.maxEvents).state).state
  run_answer : ∀ limit, (p.run limit).answer = (p.run limit).notices.countP Notice.endsPoll
  count_le : ∀ limit, (p.run limit).notices.count .workflowComplete ≤ 1
  /-- Completion is told when the last poll finds the workflow complete, -/
  complete_iff : ∀ limit, .workflowComplete ∈ (p.run limit).notices ↔
    (pollTimes (max limit 1) (p.start p.maxEvents).state).answer.getLast? = some .complete
  /-- that is, when the run returns with the workflow complete. -/
  returns_iff : ∀ limit, .workflowComplete ∈ (p.run limit).notices ↔
    p.Returns limit ∧ (p.run limit).state.workflow.isComplete = true
  getLast?_of_complete : ∀ limit, .workflowComplete ∈ (p.run limit).notices →
    (p.run limit).notices.getLast? = some .workflowComplete

theorem Told.pollingTold {notices : List Notice} {p : Poller Source} (h : Told notices p) :
    PollingTold notices p := by
  have hnone := p.countP_endsPoll_start p.maxEvents
  have hpolls := fun limit => pollsHeard_pollTimes (max limit 1) (p.start p.maxEvents).state
  have hmem : ∀ limit, .workflowComplete ∈ (p.run limit).notices ↔
      (Poller.pollTimes (max limit 1) (p.start p.maxEvents).state).answer.getLast? =
        some .complete := by
    intro limit
    rw [← (hpolls limit).mem_iff]
    exact List.mem_append.trans (or_iff_right (not_mem_of_countP_eq_zero hnone))
  refine { h with
    run_told := h.run, run_answer := ?_, count_le := ?_, complete_iff := hmem,
    returns_iff := ?_, getLast?_of_complete := ?_ }
  · intro limit
    refine (hpolls limit).length_eq.trans ?_
    rw [Poller.run, List.countP_append, hnone, Nat.zero_add]
  · intro limit
    rw [Poller.run, List.count_append,
      List.count_eq_zero_of_not_mem (not_mem_of_countP_eq_zero hnone), Nat.zero_add]
    exact (hpolls limit).count_le
  · intro limit
    exact (hmem limit).trans (getLast?_pollTimes_iff (p.isRunning_start p.maxEvents) _)
  · intro limit hcomplete
    have htold := (hpolls limit).mem_iff.2 ((hmem limit).1 hcomplete)
    rw [Poller.run, List.getLast?_append, (hpolls limit).getLast?_of_mem htold]
    rfl

/-- **What listeners hear of polling.**  Whatever the client replies, and whatever is done to the
poller and its workflow, as long as nobody stops it from outside. -/
theorem pollingTold_performAll (client : Client Source) (source : Source) (settings : Settings)
    {operations : List Operation}
    (hfree : (new client source settings).AllUndisturbed operations) :
    PollingTold ((new client source settings).allNotices operations)
      ((new client source settings).performAll operations) := by
  have hstart : Told [] (new client source settings) :=
    ⟨⟨.nil, nofun⟩, iff_of_false Bool.false_ne_true nofun⟩
  exact (hstart.performAll hfree).pollingTold

/-- A client that gives its job list once, fails once when asked for events, and then gives those
that complete the workflow. -/
def forgetful : Script :=
  ⟨[.ok [⟨"a", .blank, []⟩], .error .malformed], [.error .malformed, .ok (relapse.take 2)], []⟩

/-- Replaying stops and then has no jobs to load, so another start begins the next turn. -/
def interrupted : List Operation :=
  [.jumpToEnd, .replay, .onWorkflow (.setProgress 40), .start none, .run 9, .stop, .poll,
    .start (some 1)]

theorem pollingTold_interrupted :
    (new Script.client forgetful impatient).AllUndisturbed interrupted ∧
      PollingTold ((new Script.client forgetful impatient).allNotices interrupted)
        ((new Script.client forgetful impatient).performAll interrupted) ∧
      (((new Script.client forgetful impatient).performAll interrupted).run 9).notices =
        [.pollingStopped, .workflowComplete] := by
  have hreturns : ((new Script.client forgetful impatient).performAll
      [.jumpToEnd, .replay, .onWorkflow (.setProgress 40), .start none]).Returns 9 := by
    rw [Returns]
    decide +kernel
  have hfree : (new Script.client forgetful impatient).AllUndisturbed interrupted :=
    ⟨trivial, trivial, trivial, trivial, hreturns, trivial, trivial, trivial, trivial⟩
  exact ⟨hfree, pollingTold_performAll Script.client forgetful impatient hfree, by decide +kernel⟩

end Poller

end JobGraph
