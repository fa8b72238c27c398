import JobGraph.Proofs.Workflow.Flags

/-!
# The account of a batch

A batch takes its events in order.  Each leaves it in one of six ways: it is malformed, a duplicate
or put off, or it is tried, and then it is applied, turns out to be a duplicate or is refused.

* **One event.**  Whichever way it goes, one counter goes up by one.  Only an event that is applied
  changes the workflow, and only of such an event is more heard than that it arrived: `Booked`.
* **All events.**  So the counters add up to the number of events, and the notices of a batch are
  those of its events one after the other: `Accounted`.
* **The limit.**  No event is applied any more once it is reached, so it is never passed, and the
  workflow stays as it is from there on.
-/

namespace JobGraph

namespace BatchReport

variable (report : BatchReport) (id : Option Int)

/-- How many events a report tells of. -/
def eventCount : Nat :=
  report.applied + report.duplicates + report.deferred + report.errors.length

theorem eventCount_enter (fate : EventFate) :
    (report.enter id fate).eventCount = report.eventCount + 1 := by
  cases fate <;> simp [eventCount, enter] <;> omega

theorem jobEvents_enter_le (fate : EventFate) :
    (report.enter id fate).jobEvents ≤ report.jobEvents + 1 := by
  cases fate with
  | applied kind =>
      simp only [enter]
      split <;> omega
  | duplicate | deferred | rejected _ => exact Nat.le_succ _

/-- An event about a job is counted as applied as well. -/
theorem jobEvents_le_applied_enter (h : report.jobEvents ≤ report.applied) (fate : EventFate) :
    (report.enter id fate).jobEvents ≤ (report.enter id fate).applied := by
  cases fate with
  | applied kind =>
      simp only [enter]
      split <;> omega
  | duplicate | deferred | rejected _ => exact h

end BatchReport

namespace Workflow

variable {w : Workflow} {event : Event} {events : List Event} {limit : Option Nat}

/-! ## What is heard of an event -/

/-- The kind that an event has by its name. -/
def kindOf? (event : Event) : Option EventKind :=
  event.kindName.bind EventKind.ofName?

/-- What is heard of an event that is applied and leads to the workflow `after`: the progress there,
or the job that the event is about, with its status there. -/
inductive Heard (w : Workflow) (event : Event) (after : Workflow) : EventKind → Notice → Prop
  | progress (hkind : kindOf? event = some .workflowProgress) :
      Heard w event after .workflowProgress (.progressChanged after.progress)
  | job {change : JobChange} {id : Int} {key : NodeKey} {job : Job}
      (hkind : kindOf? event = some (.job change)) (hid : event.id = some id)
      (hsubject : w.subject? event = some key) (hjob : after.job? key = some job) :
      Heard w event after (.job change) (.jobChanged (.of job) job.status id change)

/-- An event about a job that is applied is heard of with that job. -/
theorem heard_applyJobChange {id : Int} {change : JobChange} {payload : Json} {kind : EventKind}
    (hkind : kindOf? event = some (.job change)) (hid : event.id = some id)
    (hpayload : event.payload = some payload)
    (happlied : (w.applyJobChange id change payload).answer = .ok (.applied kind)) :
    ∃ notice, (w.applyJobChange id change payload).notices = [notice] ∧
      Heard w event (w.applyJobChange id change payload).state kind notice := by
  cases hmerge : jobUpdate payload >>= w.mergeUpdate with
  | error error =>
      rw [applyJobChange, hmerge] at happlied
      cases happlied
  | ok merged =>
      obtain ⟨job, hjob, heq⟩ := applyJobChange_of_ok hmerge id change
      obtain ⟨update, hupdate, hok⟩ := bind_eq_ok.1 hmerge
      have hsubject : w.subject? event = some merged.2 := by
        rw [subject?, hpayload, Option.bind_eq_bind, Option.bind_some, hupdate]
        exact (edited_mergeUpdate hok).1
      have hchanged : (merged.1.modifyJob merged.2 (changeStatus change)).job? merged.2 =
          some (changeStatus change job) := by
        rw [job?_modifyJob, if_pos rfl, hjob, Option.map_some]
      rw [heq] at happlied ⊢
      obtain rfl : EventKind.job change = kind := by simpa using happlied
      exact ⟨_, rfl, .job hkind hid hsubject hchanged⟩

/-- Of an event that is applied one thing is heard. -/
theorem heard_applyEvent {kind : EventKind}
    (happlied : (w.applyEvent event).answer = .ok (.applied kind)) :
    ∃ notice, (w.applyEvent event).notices = [notice] ∧
      Heard w event (w.applyEvent event).state kind notice := by
  unfold applyEvent at happlied ⊢
  split at happlied
  · rename_i id kindName payload hid hname hpayload
    have hkind : kindOf? event = EventKind.ofName? kindName := by
      rw [kindOf?, hname, Option.bind_some]
    split at happlied
    · exact absurd happlied nofun
    · rename_i hnew
      rw [if_neg hnew]
      split at happlied
      · exact absurd happlied nofun
      · rename_i hjob
        exact heard_applyJobChange (hkind.trans hjob) hid hpayload happlied
      · rename_i hprogress
        unfold applyProgress at happlied ⊢
        split at happlied
        · exact absurd happlied nofun
        · obtain rfl : EventKind.workflowProgress = kind := by simpa using happlied
          exact ⟨_, rfl, .progress (hkind.trans hprogress)⟩
  · exact absurd happlied nofun

/-- The notice that an event of a batch arrived. -/
def arrival (event : Event) : Notice :=
  .eventArrived event.id event.payload

/-- An event of a batch is applied and heard of, or it is only heard to arrive. -/
theorem takeEvent_heard_or_silent (w : Workflow) (limit : Option Nat) (jobEvents : Nat)
    (event : Event) :
    (∃ kind notice, (w.takeEvent limit jobEvents event).answer = .applied kind ∧
        (w.takeEvent limit jobEvents event).notices = [arrival event, notice] ∧
        Heard w event (w.takeEvent limit jobEvents event).state kind notice) ∨
      ((∀ kind, (w.takeEvent limit jobEvents event).answer ≠ .applied kind) ∧
        (w.takeEvent limit jobEvents event).notices = [arrival event] ∧
        (w.takeEvent limit jobEvents event).state = w) := by
  unfold takeEvent
  dsimp only
  split
  · exact .inr ⟨nofun, rfl, rfl⟩
  · split
    · exact .inr ⟨nofun, rfl, rfl⟩
    · split
      · exact .inr ⟨nofun, rfl, rfl⟩
      · cases hanswer : (w.applyEvent event).answer with
        | error error =>
            obtain ⟨hstate, hnotices⟩ := w.failsSilently.applyEvent_error event error hanswer
            exact .inr ⟨nofun, by rw [hnotices, arrival], hstate⟩
        | ok outcome =>
            cases outcome with
            | duplicate =>
                obtain ⟨hstate, hnotices⟩ := w.failsSilently.applyEvent_duplicate event hanswer
                exact .inr ⟨nofun, by rw [hnotices, arrival], hstate⟩
            | applied kind =>
                obtain ⟨notice, hnotices, hheard⟩ := heard_applyEvent hanswer
                exact .inl ⟨kind, notice, rfl, by rw [hnotices, arrival], hheard⟩

/-! ## One more event of a batch -/

/-- A batch in two parts takes the second one where the first one leaves off. -/
theorem takeEvents_append (limit : Option Nat) (w : Workflow) (report : BatchReport)
    (first second : List Event) :
    takeEvents limit w report (first ++ second) =
      ⟨(takeEvents limit (takeEvents limit w report first).state
          (takeEvents limit w report first).answer second).state,
        (takeEvents limit w report first).notices ++
          (takeEvents limit (takeEvents limit w report first).state
            (takeEvents limit w report first).answer second).notices,
        (takeEvents limit (takeEvents limit w report first).state
          (takeEvents limit w report first).answer second).answer⟩ := by
  induction first generalizing w report with
  | nil => rfl
  | cons event rest ih => simp only [List.cons_append, takeEvents, ih, List.append_assoc]

/-- How the next event changes what a batch did so far: it is applied and heard of, or it is counted
otherwise and changes nothing. -/
inductive Booked (limit : Option Nat) (event : Event) (before after : Reaction Workflow BatchReport) :
    Option Notice → Prop
  | applied {kind : EventKind} {notice : Notice}
      (hbelow : limitReached limit before.answer.jobEvents = false)
      (hanswer : after.answer = before.answer.enter event.id (.applied kind))
      (hheard : Heard before.state event after.state kind notice) :
      Booked limit event before after (some notice)
  | passedOver {fate : EventFate} (hfate : ∀ kind, fate ≠ .applied kind)
      (hanswer : after.answer = before.answer.enter event.id fate)
      (hstate : after.state = before.state) : Booked limit event before after none

theorem Booked.answer_eq {before after : Reaction Workflow BatchReport} {told : Option Notice}
    (h : Booked limit event before after told) :
    ∃ fate, after.answer = before.answer.enter event.id fate := by
  cases h with
  | applied _ hanswer _ => exact ⟨_, hanswer⟩
  | passedOver _ hanswer _ => exact ⟨_, hanswer⟩

/-- The limit is not passed. -/
theorem Booked.jobEvents_le {before after : Reaction Workflow BatchReport} {told : Option Notice}
    {most : Nat} (h : Booked (some most) event before after told)
    (hle : before.answer.jobEvents ≤ most) : after.answer.jobEvents ≤ most := by
  cases h with
  | @applied kind _ hbelow hanswer _ =>
      have hlt : before.answer.jobEvents < most := by simpa [limitReached] using hbelow
      have hstep := before.answer.jobEvents_enter_le event.id (.applied kind)
      rw [hanswer]
      omega
  | passedOver hfate hanswer _ =>
      rw [hanswer, before.answer.jobEvents_enter event.id hfate]
      exact hle

/-- A batch books its last event. -/
theorem booked_concat (w : Workflow) (limit : Option Nat) (events : List Event) (event : Event) :
    ∃ told : Option Notice,
      (w.applyEvents (events ++ [event]) limit).notices =
          (w.applyEvents events limit).notices ++ arrival event :: told.toList ∧
        Booked limit event (w.applyEvents events limit) (w.applyEvents (events ++ [event]) limit)
          told := by
  have hconcat := takeEvents_append limit w .empty events [event]
  rw [← applyEvents, ← applyEvents] at hconcat
  generalize w.applyEvents events limit = before at hconcat ⊢
  rw [hconcat]
  simp only [takeEvents, List.append_nil]
  cases hreached : limitReached limit before.answer.jobEvents with
  | true =>
      obtain ⟨hstate, hfate, -⟩ := takeEvent_of_reached (w := before.state) hreached event
      rcases before.state.takeEvent_heard_or_silent limit before.answer.jobEvents event with
        ⟨kind, _, happlied, -⟩ | ⟨-, hnotices, -⟩
      · exact absurd happlied (hfate kind)
      · exact ⟨none, by rw [hnotices]; rfl, .passedOver hfate rfl hstate⟩
  | false =>
      rcases before.state.takeEvent_heard_or_silent limit before.answer.jobEvents event with
        ⟨kind, notice, happlied, hnotices, hheard⟩ | ⟨hfate, hnotices, hstate⟩
      · exact ⟨some notice, by rw [hnotices]; rfl, .applied hreached (by rw [happlied]) hheard⟩
      · exact ⟨none, by rw [hnotices]; rfl, .passedOver hfate rfl hstate⟩

/-! ## All events of a batch -/

/-- A property of what a batch did is kept by every event that it takes. -/
theorem applyEvents_induction {P : Reaction Workflow BatchReport → List Event → Prop}
    (hnil : P ⟨w, [], .empty⟩ [])
    (hconcat : ∀ events event told,
      Booked limit event (w.applyEvents events limit) (w.applyEvents (events ++ [event]) limit) told →
        P (w.applyEvents events limit) events →
          P (w.applyEvents (events ++ [event]) limit) (events ++ [event]))
    (events : List Event) : P (w.applyEvents events limit) events := by
  induction events using List.reverseRecOn with
  | nil => exact hnil
  | append_singleton events event ih =>
      obtain ⟨told, -, hbooked⟩ := w.booked_concat limit events event
      exact hconcat events event told hbooked ih

/-- Every event of a batch is counted once. -/
theorem eventCount_applyEvents (w : Workflow) (events : List Event) (limit : Option Nat) :
    (w.applyEvents events limit).answer.eventCount = events.length := by
  refine applyEvents_induction (P := fun batch events => batch.answer.eventCount = events.length)
    rfl (fun events event told hbooked ih => ?_) events
  obtain ⟨fate, hanswer⟩ := hbooked.answer_eq
  rw [hanswer, BatchReport.eventCount_enter, ih, List.length_append, List.length_singleton]

theorem jobEvents_le_applied (w : Workflow) (events : List Event) (limit : Option Nat) :
    (w.applyEvents events limit).answer.jobEvents ≤ (w.applyEvents events limit).answer.applied := by
  refine applyEvents_induction (P := fun batch _ => batch.answer.jobEvents ≤ batch.answer.applied)
    le_rfl (fun events event told hbooked ih => ?_) events
  obtain ⟨fate, hanswer⟩ := hbooked.answer_eq
  rw [hanswer]
  exact BatchReport.jobEvents_le_applied_enter _ event.id ih fate

theorem jobEvents_le_limit (w : Workflow) (events : List Event) (most : Nat) :
    (w.applyEvents events (some most)).answer.jobEvents ≤ most :=
  applyEvents_induction (P := fun batch _ => batch.answer.jobEvents ≤ most) (Nat.zero_le most)
    (fun _ _ _ hbooked ih => hbooked.jobEvents_le ih) events

/-- Once the limit is reached, the workflow stays as it is. -/
theorem state_take_of_reached (w : Workflow) (events : List Event) {most count : Nat}
    (hreached : most ≤ (w.applyEvents (events.take count) (some most)).answer.jobEvents)
    {later : Nat} (hle : count ≤ later) :
    (w.applyEvents (events.take later) (some most)).state =
      (w.applyEvents (events.take count) (some most)).state := by
  have hlimit : limitReached (some most)
      (w.applyEvents (events.take count) (some most)).answer.jobEvents = true := by
    simpa [limitReached] using hreached
  -- what is taken later is what follows the first `count` events
  have hsplit : events.take later = events.take count ++ (events.take later).drop count := by
    have htake : (events.take later).take count = events.take count := by
      rw [List.take_take, Nat.min_eq_left hle]
    rw [← htake, List.take_append_drop]
  rw [hsplit, applyEvents, takeEvents_append]
  exact (takeEvents_of_reached _ hlimit).1

/-- The notices of a batch: for each event that it arrived, and what else is heard of it. -/
def noticesOfEvents (events : List Event) (told : List (Option Notice)) : List Notice :=
  (events.zip told).flatMap fun entry => arrival entry.1 :: entry.2.toList

theorem exists_noticesOfEvents (w : Workflow) (events : List Event) (limit : Option Nat) :
    ∃ told : List (Option Notice), told.length = events.length ∧
      (w.applyEvents events limit).notices = noticesOfEvents events told ∧
      ∀ place event more, events[place]? = some event → told[place]? = some more →
        Booked limit event (w.applyEvents (events.take place) limit)
          (w.applyEvents (events.take (place + 1)) limit) more := by
  induction events using List.reverseRecOn with
  | nil => exact ⟨[], rfl, rfl, fun _ _ _ hevent => absurd hevent nofun⟩
  | append_singleton events event ih =>
      obtain ⟨told, hlength, hnotices, hbooks⟩ := ih
      obtain ⟨more, hmore, hbooked⟩ := w.booked_concat limit events event
      refine ⟨told ++ [more], by simp [hlength], ?_, fun place other heard hother hheard => ?_⟩
      · rw [hmore, hnotices, noticesOfEvents, noticesOfEvents, List.zip_append hlength.symm,
          List.flatMap_append]
        simp
      · rcases Nat.lt_trichotomy place events.length with hlt | rfl | hgt
        · rw [List.getElem?_append_left hlt] at hother
          rw [List.getElem?_append_left (hlength ▸ hlt)] at hheard
          rw [List.take_append_of_le_length hlt.le, List.take_append_of_le_length hlt]
          exact hbooks place other heard hother hheard
        · -- the last event of the batch
          obtain rfl : event = other := by simpa using hother
          obtain rfl : more = heard := by simpa [← hlength] using hheard
          rw [List.take_left', List.take_of_length_le (by simp)]
          · exact hbooked
          · rfl
        · rw [List.getElem?_eq_none (by simp; omega)] at hother
          exact absurd hother nofun

/-- What the account of a batch tells, and what is heard of it. -/
structure Accounted (w : Workflow) (events : List Event) (limit : Option Nat) : Prop where
  /-- Every event is counted once. -/
  counted : (w.applyEvents events limit).answer.applied +
      (w.applyEvents events limit).answer.duplicates +
      (w.applyEvents events limit).answer.deferred +
      (w.applyEvents events limit).answer.errors.length = events.length
  jobEvents_le_applied :
    (w.applyEvents events limit).answer.jobEvents ≤ (w.applyEvents events limit).answer.applied
  jobEvents_le_limit : ∀ most, limit = some most →
    (w.applyEvents events limit).answer.jobEvents ≤ most
  /-- Once the limit is reached, no later event changes the workflow. -/
  state_eq_of_reached : ∀ most, limit = some most → ∀ count later, count ≤ later →
    (w.applyEvents (events.take count) limit).answer.jobEvents = most →
      (w.applyEvents (events.take later) limit).state =
        (w.applyEvents (events.take count) limit).state
  /-- Each event is heard to arrive, and one that is applied is heard of once more. -/
  notices_eq : ∃ told : List (Option Notice), told.length = events.length ∧
    (w.applyEvents events limit).notices = noticesOfEvents events told ∧
    ∀ place event more, events[place]? = some event → told[place]? = some more →
      Booked limit event (w.applyEvents (events.take place) limit)
        (w.applyEvents (events.take (place + 1)) limit) more

/-- **The account of a batch is complete.** -/
theorem accounted_applyEvents (w : Workflow) (events : List Event) (limit : Option Nat) :
    Accounted w events limit where
  counted := w.eventCount_applyEvents events limit
  jobEvents_le_applied := w.jobEvents_le_applied events limit
  jobEvents_le_limit := by
    rintro most rfl
    exact w.jobEvents_le_limit events most
  state_eq_of_reached := by
    rintro most rfl count later hle hreached
    exact w.state_take_of_reached events hreached.ge hle
  notices_eq := w.exists_noticesOfEvents events limit

end Workflow

end JobGraph
