import JobGraph.Proofs.Workflow.Merging

/-!
# Batches event by event

`absorb` is what one event does to a workflow when no limit defers it.  It is all that a batch does:
an unlimited one absorbs its events one after the other, and a limited one those of a prefix.  The
limit counts job events that were applied, and once it is reached nothing is applied any more.

An event changes the workflow only if its id is above that of the last event, and then it is the
last one.  So events without an id and events with an older id are absorbed without effect.
-/

namespace JobGraph

namespace BatchReport

variable (report : BatchReport) (id : Option Int)

theorem deferred_le_enter (fate : EventFate) : report.deferred ≤ (report.enter id fate).deferred := by
  cases fate <;> simp [enter]

theorem jobEvents_enter {fate : EventFate} (h : ∀ kind, fate ≠ .applied kind) :
    (report.enter id fate).jobEvents = report.jobEvents := by
  cases fate with
  | applied kind => exact absurd rfl (h kind)
  | duplicate => rfl
  | deferred => rfl
  | rejected error => rfl

theorem deferred_enter {fate : EventFate} (h : fate ≠ .deferred) :
    (report.enter id fate).deferred = report.deferred := by
  cases fate with
  | deferred => exact absurd rfl h
  | applied kind => rfl
  | duplicate => rfl
  | rejected error => rfl

end BatchReport

namespace Workflow

/-! ## One event -/

/-- The workflow after one event that no limit defers. -/
def absorb (w : Workflow) (event : Event) : Workflow :=
  (w.takeEvent none 0 event).state

/-- An event of a batch does what it does by itself, or nothing. -/
theorem state_takeEvent (w : Workflow) (limit : Option Nat) (jobEvents : Nat) (event : Event) :
    (w.takeEvent limit jobEvents event).state = w ∨
      (w.takeEvent limit jobEvents event).state = (w.applyEvent event).state := by
  unfold takeEvent
  dsimp only
  split
  · exact .inl rfl
  · split
    · exact .inl rfl
    · split
      · exact .inl rfl
      · exact .inr rfl

section Absorb

variable (w : Workflow) {event : Event}

theorem applyJobChange_cases (id : Int) (change : JobChange) (payload : Json) :
    ((w.applyJobChange id change payload).answer = .ok (.applied (.job change)) ∧
        (w.applyJobChange id change payload).state.lastEvent = id) ∨
      ((∃ error, (w.applyJobChange id change payload).answer = .error error) ∧
        (w.applyJobChange id change payload).state = w) := by
  cases hmerge : jobUpdate payload >>= w.mergeUpdate with
  | error error =>
      rw [applyJobChange, hmerge]
      exact .inr ⟨⟨_, rfl⟩, rfl⟩
  | ok merged =>
      obtain ⟨job, -, happlied⟩ := applyJobChange_of_ok hmerge id change
      rw [happlied]
      exact .inl ⟨rfl, rfl⟩

theorem applyProgress_cases (id : Int) (payload : Json) :
    ((w.applyProgress id payload).answer = .ok (.applied .workflowProgress) ∧
        (w.applyProgress id payload).state.lastEvent = id) ∨
      ((∃ error, (w.applyProgress id payload).answer = .error error) ∧
        (w.applyProgress id payload).state = w) := by
  unfold applyProgress
  split
  · exact .inr ⟨⟨_, rfl⟩, rfl⟩
  · exact .inl ⟨rfl, rfl⟩

/-- An event is applied and becomes the last one, or it leaves the workflow as it was. -/
theorem applyEvent_cases (event : Event) :
    (∃ kind id, (w.applyEvent event).answer = .ok (.applied kind) ∧ event.id = some id ∧
        w.lastEvent < id ∧ (w.applyEvent event).state.lastEvent = id) ∨
      ((∀ kind, (w.applyEvent event).answer ≠ .ok (.applied kind)) ∧
        (w.applyEvent event).state = w) := by
  unfold applyEvent
  split
  · rename_i id kindName payload hid _ _
    split
    · exact .inr ⟨nofun, rfl⟩
    · rename_i hnew
      rw [not_le] at hnew
      split
      · exact .inr ⟨nofun, rfl⟩
      · rename_i change _
        rcases w.applyJobChange_cases id change payload with ⟨hok, hlast⟩ | ⟨⟨error, herror⟩, hsame⟩
        · exact .inl ⟨_, id, hok, hid, hnew, hlast⟩
        · exact .inr ⟨fun kind => by rw [herror]; exact nofun, hsame⟩
      · rcases w.applyProgress_cases id payload with ⟨hok, hlast⟩ | ⟨⟨error, herror⟩, hsame⟩
        · exact .inl ⟨_, id, hok, hid, hnew, hlast⟩
        · exact .inr ⟨fun kind => by rw [herror]; exact nofun, hsame⟩
  · exact .inr ⟨nofun, rfl⟩

/-- An event that no limit defers is applied and becomes the last one, or it has no effect. -/
theorem absorb_cases (event : Event) :
    (∃ kind id, (w.takeEvent none 0 event).answer = .applied kind ∧ event.id = some id ∧
        w.lastEvent < id ∧ (w.absorb event).lastEvent = id) ∨
      ((∀ kind, (w.takeEvent none 0 event).answer ≠ .applied kind) ∧
        (w.takeEvent none 0 event).answer ≠ .deferred ∧ w.absorb event = w) := by
  unfold absorb takeEvent
  dsimp only
  split
  · exact .inr ⟨nofun, nofun, rfl⟩
  · split
    · exact .inr ⟨nofun, nofun, rfl⟩
    · rw [show limitReached none 0 = false from rfl, if_neg Bool.false_ne_true]
      rcases w.applyEvent_cases event with ⟨kind, id, hok, hid, hnew, hlast⟩ | ⟨hnot, hsame⟩
      · exact .inl ⟨kind, id, by rw [hok], hid, hnew, hlast⟩
      · refine .inr ⟨fun kind => ?_, ?_, hsame⟩
        · dsimp only
          split
          · rename_i other hother
            exact absurd hother (hnot other)
          · exact nofun
          · exact nofun
        · dsimp only
          split <;> exact nofun

theorem answer_takeEvent_ne_deferred (event : Event) :
    (w.takeEvent none 0 event).answer ≠ .deferred := by
  rcases w.absorb_cases event with ⟨kind, _, happlied, -⟩ | ⟨-, hdeferred, -⟩
  · rw [happlied]
    exact nofun
  · exact hdeferred

theorem absorb_eq_or_lt (event : Event) :
    w.absorb event = w ∨ ∃ id, event.id = some id ∧ w.lastEvent < id ∧
      (w.absorb event).lastEvent = id := by
  rcases w.absorb_cases event with ⟨_, id, -, hid, hlt, heq⟩ | ⟨-, -, hsame⟩
  · exact .inr ⟨id, hid, hlt, heq⟩
  · exact .inl hsame

theorem lastEvent_le_absorb (event : Event) : w.lastEvent ≤ (w.absorb event).lastEvent := by
  rcases w.absorb_eq_or_lt event with h | ⟨id, -, hlt, heq⟩
  · rw [h]
  · rw [heq]
    exact hlt.le

/-- An event without an id is absorbed without effect. -/
theorem absorb_of_id_eq_none (h : event.id = none) : w.absorb event = w := by
  rcases w.absorb_eq_or_lt event with heq | ⟨id, hid, -⟩
  · exact heq
  · rw [h] at hid
    exact absurd hid (by simp)

/-- An event that is not newer than the last one is absorbed without effect. -/
theorem absorb_of_id_le {id : Int} (h : event.id = some id) (hle : id ≤ w.lastEvent) :
    w.absorb event = w := by
  rcases w.absorb_eq_or_lt event with heq | ⟨other, hother, hlt, -⟩
  · exact heq
  · rw [h, Option.some.injEq] at hother
    omega

/-- Events without effect have none together. -/
theorem foldl_absorb_of_forall {events : List Event} (h : ∀ event ∈ events, w.absorb event = w) :
    events.foldl absorb w = w := by
  induction events with
  | nil => rfl
  | cons event rest ih =>
      obtain ⟨hevent, hrest⟩ := List.forall_mem_cons.1 h
      rw [List.foldl_cons, hevent]
      exact ih hrest

end Absorb

/-! ## One event of a batch -/

variable {w : Workflow} {limit : Option Nat}

/-- Below the limit an event is taken as if there were none. -/
theorem takeEvent_of_not_reached {jobEvents : Nat} (h : limitReached limit jobEvents = false)
    (event : Event) : w.takeEvent limit jobEvents event = w.takeEvent none 0 event := by
  unfold takeEvent
  rw [h, show limitReached none 0 = false from rfl]

/-- At the limit nothing is applied.  What is not put off would not have had an effect. -/
theorem takeEvent_of_reached {jobEvents : Nat} (h : limitReached limit jobEvents = true)
    (event : Event) :
    (w.takeEvent limit jobEvents event).state = w ∧
      (∀ kind, (w.takeEvent limit jobEvents event).answer ≠ .applied kind) ∧
      ((w.takeEvent limit jobEvents event).answer = .deferred ∨ w.absorb event = w) := by
  unfold absorb takeEvent
  rw [h]
  dsimp only
  split
  · exact ⟨rfl, fun _ => EventFate.noConfusion, .inr rfl⟩
  · split
    · exact ⟨rfl, fun _ => EventFate.noConfusion, .inr rfl⟩
    · exact ⟨rfl, fun _ => EventFate.noConfusion, .inl rfl⟩

/-! ## Whole batches -/

theorem deferred_le_takeEvents (limit : Option Nat) (w : Workflow) (report : BatchReport) (events : List Event) :
    report.deferred ≤ (takeEvents limit w report events).answer.deferred := by
  induction events generalizing w report with
  | nil => exact le_rfl
  | cons event rest ih => exact (report.deferred_le_enter event.id _).trans (ih _ _)

/-- Once the limit is reached, a batch does nothing more. -/
theorem takeEvents_of_reached {report : BatchReport} (events : List Event)
    (h : limitReached limit report.jobEvents = true) :
    (takeEvents limit w report events).state = w ∧
      ((takeEvents limit w report events).answer.deferred = report.deferred →
        events.foldl absorb w = w) := by
  induction events generalizing report with
  | nil => exact ⟨rfl, fun _ => rfl⟩
  | cons event rest ih =>
      obtain ⟨hstate, hfate, heffect⟩ := takeEvent_of_reached (w := w) h event
      rw [takeEvents, hstate]
      dsimp only
      have hjobs := report.jobEvents_enter event.id hfate
      obtain ⟨hrest, hdeferred⟩ := ih (hjobs ▸ h)
      refine ⟨hrest, fun heq => ?_⟩
      have hle := deferred_le_takeEvents limit w
        (report.enter event.id (w.takeEvent limit report.jobEvents event).answer) rest
      rcases heffect with hput | habsorb
      · -- an event that is put off counts, and the count never goes down again
        rw [hput] at hle heq
        have : (report.enter event.id .deferred).deferred = report.deferred + 1 := rfl
        omega
      · rw [List.foldl_cons, habsorb]
        refine hdeferred (le_antisymm ?_ hle)
        rw [heq]
        exact report.deferred_le_enter event.id _

theorem takeEvents_state (report : BatchReport) (events : List Event) :
    ∃ count, (takeEvents limit w report events).state = (events.take count).foldl absorb w ∧
      ((takeEvents limit w report events).answer.deferred = report.deferred →
        (takeEvents limit w report events).state = events.foldl absorb w) := by
  induction events generalizing w report with
  | nil => exact ⟨0, rfl, fun _ => rfl⟩
  | cons event rest ih =>
      cases hreached : limitReached limit report.jobEvents with
      | true =>
          -- nothing more is absorbed: the prefix ends here
          obtain ⟨hstate, hdeferred⟩ := takeEvents_of_reached (w := w) (event :: rest) hreached
          exact ⟨0, hstate, fun heq => hstate.trans (hdeferred heq).symm⟩
      | false =>
          rw [takeEvents, takeEvent_of_not_reached hreached event]
          dsimp only
          generalize hreport : report.enter event.id (w.takeEvent none 0 event).answer = entered
          obtain ⟨count, hcount, hdeferred⟩ := ih (w := w.absorb event) entered
          refine ⟨count + 1, hcount, fun heq => hdeferred (le_antisymm ?_ ?_)⟩
          · refine le_of_eq_of_le heq ?_
            rw [← hreport]
            exact report.deferred_le_enter event.id _
          · exact deferred_le_takeEvents limit (w.absorb event) entered rest

/-- **Batches.**  A batch absorbs a prefix of its events, all of them when it puts none off. -/
theorem applyEvents_state (w : Workflow) (events : List Event) (limit : Option Nat) :
    ∃ count, (w.applyEvents events limit).state = (events.take count).foldl absorb w ∧
      ((w.applyEvents events limit).answer.deferred = 0 →
        (w.applyEvents events limit).state = events.foldl absorb w) :=
  takeEvents_state .empty events

/-- Without a limit nothing is put off. -/
theorem deferred_takeEvents_none (w : Workflow) (report : BatchReport) (events : List Event) :
    (takeEvents none w report events).answer.deferred = report.deferred := by
  induction events generalizing w report with
  | nil => rfl
  | cons event rest ih =>
      rw [takeEvents, takeEvent_of_not_reached rfl event]
      dsimp only
      rw [ih, report.deferred_enter event.id (w.answer_takeEvent_ne_deferred event)]

theorem applyEvents_none_state (w : Workflow) (events : List Event) :
    (w.applyEvents events none).state = events.foldl absorb w := by
  obtain ⟨_, -, hall⟩ := w.applyEvents_state events none
  exact hall (deferred_takeEvents_none w .empty events)

end Workflow

end JobGraph
