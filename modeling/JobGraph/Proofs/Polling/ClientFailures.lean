import JobGraph.Proofs.Polling.History
import JobGraph.Proofs.Polling.Playback

/-!
# Failures of the client

A poller counts how many polls in a row have failed.  What was asked of its client and how often it
was started, `Contact`, tells the count: it is the length of the row of failures that the contacts
end with, `failuresInARow`, as far as 32 bits can tell it.

* **Polls while stopped.**  They count as well, and so the count may pass what is allowed.
* **Running.**  A poller that is running has not passed it: the failure that does so stops the poller.
  So a run that stops by itself, and not because the workflow is complete, has seen one failure more
  than are allowed, with nothing in between.
* **Width.**  The count is exact as long as the row is shorter than `UInt32.size`.  While the poller
  is running it always is, unless the counter cannot even hold one failure more than are allowed.
  While it is stopped nothing ends the row, and after as many failures as use the counter up it shows
  none.
-/

namespace JobGraph.Poller

variable {Source : Type}

/-! ## Contacts -/

/-- What matters to the count of failures. -/
inductive Contact where
  /-- The poller was not running, and was started. -/
  | started
  /-- The client was asked for events and gave some. -/
  | answered
  /-- The client was asked for events and failed. -/
  | failed
  deriving DecidableEq, Repr

/-- How many failures in a row the contacts end with. -/
def failuresInARow (contacts : List Contact) : Nat :=
  (contacts.reverse.takeWhile fun contact => contact = .failed).length

/-- A start is a contact unless the poller is running. -/
def startContacts (p : Poller Source) : List Contact :=
  if p.isRunning then [] else [.started]

/-- A poll of an incomplete workflow asks the client. -/
def pollContacts (p : Poller Source) : List Contact :=
  if p.workflow.isComplete then []
  else
    match (p.client.fetchEvents p.source p.workflow.id p.workflow.lastEvent).1 with
    | .ok _ => [.answered]
    | .error _ => [.failed]

/-- The contacts of polling while running. -/
def timesContacts : Nat → Poller Source → List Contact
  | 0, _ => []
  | count + 1, p => if !p.isRunning then [] else p.pollContacts ++ timesContacts count p.poll.state

/-- Restarting stops first, so the start takes effect if it is come to. -/
def restartContacts : Except WorkflowError LayeringReport → List Contact
  | .ok _ => [.started]
  | .error _ => []

/-- The contacts of an operation. -/
def contacts (p : Poller Source) : Operation → List Contact
  | .onWorkflow _ | .loadJobs | .stop | .halt => []
  | .start _ => p.startContacts
  | .poll => p.pollContacts
  | .run limit => p.startContacts ++ timesContacts (max limit 1) (p.start p.maxEvents).state
  | .replay => restartContacts p.replay.answer
  | .jumpToEnd => restartContacts p.jumpToEnd.answer

/-- The contacts of a run. -/
def allContacts (p : Poller Source) : List Operation → List Contact
  | [] => []
  | operation :: rest => p.contacts operation ++ (p.perform operation).allContacts rest

/-! ## Rows of failures -/

theorem failuresInARow_concat_failed (contacts : List Contact) :
    failuresInARow (contacts ++ [.failed]) = failuresInARow contacts + 1 := by
  simp [failuresInARow]

theorem failuresInARow_concat {contact : Contact} (h : contact ≠ .failed)
    (contacts : List Contact) : failuresInARow (contacts ++ [contact]) = 0 := by
  simp [failuresInARow, h]

theorem failuresInARow_replicate (count : Nat) :
    failuresInARow (List.replicate count .failed) = count := by
  simp [failuresInARow]

/-- The contacts end with as many failures. -/
theorem replicate_failed_suffix (contacts : List Contact) :
    List.replicate (failuresInARow contacts) .failed <:+ contacts := by
  have hrow : contacts.reverse.takeWhile (fun contact => contact = .failed) =
      List.replicate (failuresInARow contacts) .failed := by
    refine List.eq_replicate_iff.2 ⟨rfl, fun contact hcontact => ?_⟩
    simpa using List.mem_takeWhile_imp hcontact
  rw [← List.reverse_prefix, List.reverse_replicate, ← hrow]
  exact List.takeWhile_prefix _

/-! ## The count -/

/-- The poller has counted the failures since it was started or answered, in 32 bits.  If it is
running they are not more than allowed, as long as the counter can pass what is allowed. -/
structure Counted (allowed : Nat) (contacts : List Contact) (p : Poller Source) : Prop where
  maxFailures_eq : p.maxFailures = allowed
  failures_eq : p.failures = failuresInARow contacts % UInt32.size
  row_le_of_running : allowed + 1 < UInt32.size → p.isRunning = true →
    failuresInARow contacts ≤ allowed

/-- What a poll does to the count, and whether it ends polling. -/
theorem poll_outcomes (p : Poller Source) :
    (p.workflow.isComplete = true ∧ p.pollContacts = [] ∧ p.poll.answer = .complete ∧
        p.poll.state = p.halt) ∨
      (∃ source, p.pollContacts = [.failed] ∧ p.poll.answer = .failed ∧
        p.poll.state = { p with
          source
          failures := (p.failures + 1) % UInt32.size
          isRunning := p.isRunning && (p.failures + 1) % UInt32.size ≤ p.maxFailures }) ∨
      ∃ source workflow report, p.pollContacts = [.answered] ∧ p.poll.answer = .polled report ∧
        p.poll.state = { p with source, workflow, failures := 0 } := by
  unfold poll pollContacts
  split
  · rename_i hcomplete
    exact .inl ⟨hcomplete, rfl, rfl, p.stop_state⟩
  · obtain ⟨reply, source⟩ := p.client.fetchEvents p.source p.workflow.id p.workflow.lastEvent
    cases reply with
    | ok events => exact .inr (.inr ⟨source, _, _, rfl, rfl, rfl⟩)
    | error error =>
        refine .inr (.inl ⟨source, rfl, rfl, ?_⟩)
        simp only [countFailure]
        split
        · rename_i hmore
          rw [stop_state, halt]
          simp [Nat.not_le.2 hmore]
        · rename_i hmore
          simp [Nat.not_lt.1 hmore]

theorem pollTimes_of_not_running {p : Poller Source} (h : p.isRunning = false) (count : Nat) :
    pollTimes count p = ⟨p, [], []⟩ := by
  cases count with
  | zero => rfl
  | succ count => rw [pollTimes, h]; rfl

theorem timesContacts_of_not_running {p : Poller Source} (h : p.isRunning = false) (count : Nat) :
    timesContacts count p = [] := by
  cases count with
  | zero => rfl
  | succ count => rw [timesContacts, h]; rfl

theorem isRunning_loadJobs (p : Poller Source) : p.loadJobs.state.isRunning = p.isRunning := by
  unfold loadJobs
  dsimp only
  split <;> rfl

theorem isRunning_start (p : Poller Source) (maxEvents : Option Nat) :
    (p.start maxEvents).state.isRunning = true := by
  unfold start
  split
  · assumption
  · rfl

namespace Counted

variable {allowed : Nat} {contacts : List Contact} {p : Poller Source}

/-- Whatever leaves the count alone, and does not start the poller. -/
theorem congr (h : Counted allowed contacts p) {q : Poller Source}
    (hmax : q.maxFailures = p.maxFailures) (hfailures : q.failures = p.failures)
    (hrunning : q.isRunning = true → p.isRunning = true) : Counted allowed contacts q where
  maxFailures_eq := hmax.trans h.maxFailures_eq
  failures_eq := hfailures.trans h.failures_eq
  row_le_of_running hallowed hq := h.row_le_of_running hallowed (hrunning hq)

/-- A start or an answer sets the count to zero, and the poller may be running then. -/
theorem reset (h : Counted allowed contacts p) {contact : Contact} (hcontact : contact ≠ .failed)
    {q : Poller Source} (hmax : q.maxFailures = p.maxFailures) (hfailures : q.failures = 0) :
    Counted allowed (contacts ++ [contact]) q := by
  have hnone : failuresInARow (contacts ++ [contact]) = 0 := failuresInARow_concat hcontact contacts
  refine ⟨hmax.trans h.maxFailures_eq, ?_, fun _ _ => ?_⟩
  · rw [hfailures, hnone, Nat.zero_mod]
  · rw [hnone]
    exact Nat.zero_le allowed

/-- One more failure while running does not use the counter up. -/
theorem next_eq (h : Counted allowed contacts p) (hallowed : allowed + 1 < UInt32.size)
    (hrunning : p.isRunning = true) :
    (p.failures + 1) % UInt32.size = failuresInARow contacts + 1 := by
  have hrow := h.row_le_of_running hallowed hrunning
  rw [h.failures_eq, Nat.mod_add_mod, Nat.mod_eq_of_lt (by omega)]

theorem halt (h : Counted allowed contacts p) : Counted allowed contacts p.halt :=
  h.congr rfl rfl fun hrunning => absurd hrunning Bool.false_ne_true

theorem stop (h : Counted allowed contacts p) : Counted allowed contacts p.stop.state := by
  rw [stop_state]
  exact h.halt

theorem start (h : Counted allowed contacts p) (maxEvents : Option Nat) :
    Counted allowed (contacts ++ p.startContacts) (p.start maxEvents).state := by
  unfold Poller.start startContacts
  split
  · rwa [List.append_nil]
  · exact h.reset (show Contact.started ≠ .failed by decide) rfl rfl

theorem loadJobs (h : Counted allowed contacts p) : Counted allowed contacts p.loadJobs.state := by
  unfold Poller.loadJobs
  dsimp only
  split
  · exact h.congr rfl rfl id
  · exact h.congr rfl rfl id

theorem poll (h : Counted allowed contacts p) :
    Counted allowed (contacts ++ p.pollContacts) p.poll.state := by
  rcases p.poll_outcomes with ⟨-, hnone, -, hstate⟩ | ⟨source, hfailed, -, hstate⟩ |
    ⟨source, workflow, report, hanswered, -, hstate⟩
  · rw [hnone, List.append_nil, hstate]
    exact h.halt
  · rw [hfailed, hstate]
    refine ⟨h.maxFailures_eq, ?_, fun hallowed hrunning => ?_⟩
    · rw [failuresInARow_concat_failed, h.failures_eq, Nat.mod_add_mod]
    · obtain ⟨hrunning, hle⟩ := Bool.and_eq_true_iff.1 hrunning
      rw [failuresInARow_concat_failed, ← h.next_eq hallowed hrunning, ← h.maxFailures_eq]
      exact of_decide_eq_true hle
  · rw [hanswered, hstate]
    exact h.reset (show Contact.answered ≠ .failed by decide) rfl rfl

/-- A running poller is stopped by a poll of a complete workflow, or by one failure too many. -/
theorem stopped_by_poll (h : Counted allowed contacts p) (hrunning : p.isRunning = true)
    (hstopped : p.poll.state.isRunning = false) :
    p.poll.state.workflow.isComplete = true ∨
      allowed + 1 < UInt32.size ∧ failuresInARow (contacts ++ p.pollContacts) = allowed + 1 := by
  rcases p.poll_outcomes with ⟨hcomplete, -, -, hstate⟩ | ⟨source, hfailed, -, hstate⟩ |
    ⟨source, workflow, report, -, -, hstate⟩
  · rw [hstate]
    exact .inl hcomplete
  · refine .inr ?_
    rw [hstate, hrunning, Bool.true_and, decide_eq_false_iff_not, h.maxFailures_eq] at hstopped
    -- the counter has passed what is allowed, and so it can
    have hlt : (p.failures + 1) % UInt32.size < UInt32.size := Nat.mod_lt _ (by decide)
    have hallowed : allowed + 1 < UInt32.size := by omega
    have hrow := h.row_le_of_running hallowed hrunning
    rw [h.next_eq hallowed hrunning] at hstopped
    rw [hfailed, failuresInARow_concat_failed]
    exact ⟨hallowed, by omega⟩
  · rw [hstate] at hstopped
    rw [hrunning] at hstopped
    exact absurd hstopped.symm Bool.false_ne_true

theorem pollTimes (h : Counted allowed contacts p) (count : Nat) :
    Counted allowed (contacts ++ timesContacts count p) (pollTimes count p).state := by
  induction count generalizing contacts p with
  | zero =>
      rw [timesContacts, List.append_nil]
      exact h
  | succ count ih =>
      unfold timesContacts Poller.pollTimes
      split
      · rwa [List.append_nil]
      · rw [← List.append_assoc]
        exact ih h.poll

/-- A running poller that polls until it is stopped has a complete workflow, or one failure too
many. -/
theorem stopped_by_pollTimes (h : Counted allowed contacts p) (hrunning : p.isRunning = true)
    {count : Nat} (hstopped : (Poller.pollTimes count p).state.isRunning = false) :
    (Poller.pollTimes count p).state.workflow.isComplete = true ∨
      allowed + 1 < UInt32.size ∧
        failuresInARow (contacts ++ timesContacts count p) = allowed + 1 := by
  induction count generalizing contacts p with
  | zero => exact absurd (hrunning.symm.trans hstopped) Bool.false_ne_true.symm
  | succ count ih =>
      rw [Poller.pollTimes, hrunning] at hstopped ⊢
      rw [timesContacts, hrunning]
      change (Poller.pollTimes count p.poll.state).state.isRunning = false at hstopped
      change (Poller.pollTimes count p.poll.state).state.workflow.isComplete = true ∨
        allowed + 1 < UInt32.size ∧
          failuresInARow (contacts ++ (p.pollContacts ++ timesContacts count p.poll.state)) =
            allowed + 1
      rw [← List.append_assoc]
      cases hgoes : p.poll.state.isRunning with
      | true => exact ih h.poll hgoes hstopped
      | false =>
          rw [pollTimes_of_not_running hgoes, timesContacts_of_not_running hgoes, List.append_nil]
          exact h.stopped_by_poll hrunning hgoes

theorem restart (h : Counted allowed contacts p) (maxEvents : Option Nat) :
    Counted allowed (contacts ++ restartContacts (p.restart maxEvents).answer)
      (p.restart maxEvents).state := by
  have hloaded := h.stop.loadJobs
  have hstopped : p.stop.state.loadJobs.state.isRunning = false := by
    rw [isRunning_loadJobs, stop_state]
    rfl
  have hstart : p.stop.state.loadJobs.state.startContacts = [.started] := by
    rw [startContacts, hstopped, if_neg Bool.false_ne_true]
  unfold Poller.restart
  dsimp only
  split
  · rw [restartContacts, List.append_nil]
    exact hloaded
  · rw [restartContacts, ← hstart]
    exact hloaded.start maxEvents

/-- One operation keeps the count. -/
theorem operate (h : Counted allowed contacts p) (operation : Operation) :
    Counted allowed (contacts ++ p.contacts operation) (p.perform operation) := by
  cases operation with
  | onWorkflow operation =>
      rw [Poller.contacts, List.append_nil]
      exact h.congr rfl rfl id
  | loadJobs =>
      rw [Poller.contacts, List.append_nil]
      exact h.loadJobs
  | start maxEvents => exact h.start maxEvents
  | stop =>
      rw [Poller.contacts, List.append_nil]
      exact h.stop
  | halt =>
      rw [Poller.contacts, List.append_nil]
      exact h.halt
  | poll => exact h.poll
  | run limit =>
      rw [Poller.contacts, ← List.append_assoc]
      exact ((h.start p.maxEvents).pollTimes (max limit 1)).halt
  | replay => exact h.restart (some 1)
  | jumpToEnd => exact h.restart none

/-- A whole run does. -/
theorem performAll (h : Counted allowed contacts p) (operations : List Operation) :
    Counted allowed (contacts ++ p.allContacts operations) (p.performAll operations) := by
  induction operations generalizing contacts p with
  | nil =>
      rw [allContacts, List.append_nil]
      exact h
  | cons operation rest ih =>
      rw [allContacts, ← List.append_assoc]
      exact ih (h.operate operation)

end Counted

/-! ## Every run -/

/-- Polling of a run stops by itself, after so many polls or before. -/
def Returns (p : Poller Source) (limit : Nat) : Prop :=
  (pollTimes (max limit 1) (p.start p.maxEvents).state).state.isRunning = false

/-- What the count of failures says of a poller with such contacts. -/
structure FailuresTold (allowed : Nat) (contacts : List Contact) (p : Poller Source) : Prop extends
    Counted allowed contacts p where
  /-- The counter keeps to its width. -/
  failures_lt : p.failures < UInt32.size
  /-- The count is exact until the row of failures has used the counter up. -/
  failures_eq_iff : p.failures = failuresInARow contacts ↔ failuresInARow contacts < UInt32.size
  /-- While the poller is running it is exact, if the counter can pass what is allowed. -/
  exact_of_running : allowed + 1 < UInt32.size → p.isRunning = true →
    p.failures = failuresInARow contacts
  le_of_running : p.isRunning = true → p.failures ≤ allowed
  /-- The polls that failed are the contacts that did. -/
  failed_iff : p.poll.answer = .failed ↔ p.pollContacts = [.failed]
  /-- A poll that failed leaves the workflow as it was. -/
  workflow_of_failed : p.poll.answer = .failed → p.poll.state.workflow = p.workflow
  /-- A run that returns leaves the workflow complete, or with one failure more than allowed, all of
  them in a row. -/
  of_returns : ∀ limit, p.Returns limit →
    (p.run limit).state.isRunning = false ∧
      ((p.run limit).state.workflow.isComplete = true ∨
        (p.run limit).state.failures = allowed + 1 ∧
          List.replicate (allowed + 1) .failed <:+ contacts ++ p.contacts (.run limit))

namespace Counted

variable {allowed : Nat} {contacts : List Contact} {p : Poller Source}

theorem failures_lt (h : Counted allowed contacts p) : p.failures < UInt32.size := by
  rw [h.failures_eq]
  exact Nat.mod_lt _ (by decide)

theorem failures_eq_iff (h : Counted allowed contacts p) :
    p.failures = failuresInARow contacts ↔ failuresInARow contacts < UInt32.size := by
  rw [h.failures_eq]
  exact Nat.mod_eq_iff_lt (by decide)

theorem exact_of_running (h : Counted allowed contacts p) (hallowed : allowed + 1 < UInt32.size)
    (hrunning : p.isRunning = true) : p.failures = failuresInARow contacts :=
  h.failures_eq_iff.2
    ((h.row_le_of_running hallowed hrunning).trans_lt (Nat.lt_of_succ_lt hallowed))

theorem le_of_running (h : Counted allowed contacts p) (hrunning : p.isRunning = true) :
    p.failures ≤ allowed := by
  by_cases hallowed : allowed + 1 < UInt32.size
  · rw [h.exact_of_running hallowed hrunning]
    exact h.row_le_of_running hallowed hrunning
  · -- the counter cannot show more than is allowed
    have hlt := h.failures_lt
    omega

/-- A run that returns has a complete workflow, or one failure too many. -/
theorem of_returns (h : Counted allowed contacts p) {limit : Nat} (hreturns : p.Returns limit) :
    (p.run limit).state.workflow.isComplete = true ∨
      (p.run limit).state.failures = allowed + 1 ∧
        List.replicate (allowed + 1) .failed <:+ contacts ++ p.contacts (.run limit) := by
  have hrun : Counted allowed (contacts ++ p.contacts (.run limit)) (p.run limit).state :=
    h.operate (.run limit)
  rcases (h.start p.maxEvents).stopped_by_pollTimes (p.isRunning_start _) hreturns with
    hcomplete | ⟨hallowed, hrow⟩
  · exact .inl hcomplete
  · rw [List.append_assoc] at hrow
    change failuresInARow (contacts ++ p.contacts (.run limit)) = allowed + 1 at hrow
    have hsuffix := replicate_failed_suffix (contacts ++ p.contacts (.run limit))
    rw [hrow] at hsuffix
    refine .inr ⟨?_, hsuffix⟩
    rw [hrun.failures_eq, hrow, Nat.mod_eq_of_lt hallowed]

theorem failuresTold (h : Counted allowed contacts p) : FailuresTold allowed contacts p := by
  refine { h with failures_lt := h.failures_lt, failures_eq_iff := h.failures_eq_iff,
                  exact_of_running := h.exact_of_running, le_of_running := h.le_of_running,
                  failed_iff := ?_, workflow_of_failed := ?_,
                  of_returns := fun _ hreturns => ⟨rfl, h.of_returns hreturns⟩ }
  · rcases p.poll_outcomes with ⟨-, hcontacts, hanswer, -⟩ | ⟨_, hcontacts, hanswer, -⟩ |
      ⟨_, _, _, hcontacts, hanswer, -⟩ <;> simp [hcontacts, hanswer]
  · intro hfailed
    rcases p.poll_outcomes with ⟨-, -, hanswer, -⟩ | ⟨_, -, -, hstate⟩ | ⟨_, _, _, -, hanswer, -⟩
    · exact absurd (hfailed.symm.trans hanswer) nofun
    · rw [hstate]
    · exact absurd (hfailed.symm.trans hanswer) nofun

end Counted

theorem counted_new (client : Client Source) (source : Source) (settings : Settings) :
    Counted settings.maxClientFailures [] (new client source settings) :=
  ⟨rfl, rfl, fun _ hrunning => absurd hrunning Bool.false_ne_true⟩

/-- **Failures of the client.**  After any operations on a poller, and whatever its client replied,
the count of failures is that of the contacts since the poller was started or answered, in 32
bits. -/
theorem failuresTold_performAll (client : Client Source) (source : Source) (settings : Settings)
    (operations : List Operation) :
    FailuresTold settings.maxClientFailures ((new client source settings).allContacts operations)
      ((new client source settings).performAll operations) :=
  ((counted_new client source settings).performAll operations).failuresTold

/-- A client that fails, gives no events once, and fails from then on. -/
def flaky : Script :=
  ⟨[.ok [⟨"a", .blank, []⟩]], [.error .malformed, .ok [], .error .malformed], []⟩

/-- One failure is allowed. -/
def impatient : Settings :=
  { Settings.default with maxClientFailures := 1 }

/-- Two polls while running, and two more while stopped. -/
def persistent : List Operation :=
  [.jumpToEnd, .poll, .poll, .stop, .poll, .poll, .loadJobs]

/-- A run then starts anew, and takes two failures. -/
theorem failuresTold_persistent :
    FailuresTold 1 [.started, .failed, .answered, .failed, .failed]
        ((new Script.client flaky impatient).performAll persistent) ∧
      ((new Script.client flaky impatient).performAll persistent).Returns 9 ∧
      (((new Script.client flaky impatient).performAll persistent).run 9).answer = 2 ∧
      ((new Script.client flaky impatient).performAll persistent).contacts (.run 9) =
        [.started, .failed, .failed] := by
  have hcontacts : (new Script.client flaky impatient).allContacts persistent =
      [.started, .failed, .answered, .failed, .failed] := by decide +kernel
  refine ⟨?_, ?_, by decide +kernel, by decide +kernel⟩
  · rw [← hcontacts]
    exact failuresTold_performAll Script.client flaky impatient persistent
  · rw [Returns]
    decide +kernel

/-! ## Polls while stopped -/

/-- A client that has no events to give, whatever it is asked. -/
def Withholds (client : Client Source) : Prop :=
  ∀ source workflow after, ∃ error, (client.fetchEvents source workflow after).1 = .error error

theorem withholds_unreachable (url reason : String) : Withholds (.unreachable url reason) :=
  fun _ _ _ => ⟨_, rfl⟩

/-- A poll that fails leaves nothing changed by which the next one could succeed. -/
theorem poll_of_withholds {p : Poller Source} (hclient : Withholds p.client)
    (hincomplete : p.workflow.isComplete = false) :
    p.pollContacts = [.failed] ∧ p.poll.state.client = p.client ∧
      p.poll.state.workflow = p.workflow := by
  have hfailed : p.pollContacts = [.failed] := by
    obtain ⟨error, herror⟩ := hclient p.source p.workflow.id p.workflow.lastEvent
    rw [pollContacts, hincomplete, if_neg Bool.false_ne_true, herror]
  rcases p.poll_outcomes with ⟨hcomplete, -, -, -⟩ | ⟨source, -, -, hstate⟩ |
    ⟨_, _, _, hanswered, -, -⟩
  · exact absurd (hincomplete.symm.trans hcomplete) Bool.false_ne_true
  · rw [hstate]
    exact ⟨hfailed, rfl, rfl⟩
  · exact absurd (hfailed.symm.trans hanswered) (by decide)

theorem allContacts_of_withholds {p : Poller Source} (hclient : Withholds p.client)
    (hincomplete : p.workflow.isComplete = false) (count : Nat) :
    p.allContacts (List.replicate count .poll) = List.replicate count .failed := by
  induction count generalizing p with
  | zero => rfl
  | succ count ih =>
      obtain ⟨hfailed, hsame, hworkflow⟩ := poll_of_withholds hclient hincomplete
      rw [List.replicate_succ, List.replicate_succ, allContacts, contacts, hfailed, perform,
        ih (hsame ▸ hclient) (hworkflow ▸ hincomplete)]
      rfl

/-- What a poller that is never started shows after so many polls without success. -/
theorem failures_of_withholds {client : Client Source} (hclient : Withholds client)
    (source : Source) (settings : Settings) (count : Nat) :
    failuresInARow ((new client source settings).allContacts (List.replicate count .poll)) =
        count ∧
      ((new client source settings).performAll (List.replicate count .poll)).failures =
        count % UInt32.size := by
  have hcounted := (counted_new client source settings).performAll (List.replicate count .poll)
  have hrow : failuresInARow
      ((new client source settings).allContacts (List.replicate count .poll)) = count := by
    rw [allContacts_of_withholds hclient rfl, failuresInARow_replicate]
  refine ⟨hrow, ?_⟩
  rw [hcounted.failures_eq, List.nil_append, hrow]

/-- As many failures as use the counter up, and the poller shows none. -/
theorem failures_forgotten :
    Settings.default.maxClientFailures + 1 < UInt32.size ∧
      failuresInARow ((new (.unreachable "http://server" "refused") () .default).allContacts
        (List.replicate UInt32.size .poll)) = UInt32.size ∧
      ((new (.unreachable "http://server" "refused") () .default).performAll
        (List.replicate UInt32.size .poll)).failures = 0 := by
  obtain ⟨hrow, hfailures⟩ := failures_of_withholds
    (withholds_unreachable "http://server" "refused") () .default UInt32.size
  exact ⟨by decide, hrow, hfailures.trans (Nat.mod_self UInt32.size)⟩

end JobGraph.Poller
