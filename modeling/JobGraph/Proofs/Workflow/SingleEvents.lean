import JobGraph.Proofs.Workflow.Batches

/-!
# Events one by one

An event may come in a batch or by itself, and each way has checks of its own.  A batch wants every
event to be well-formed.  A single event only has to have its parts.

* **Empty names and null payloads** get past the second check.  But no kind has the empty name, and
  a null payload holds neither a job nor a percentage, so such an event is rejected all the same.
* **The id zero** counts as missing in a batch.  By itself an event with this id is one like any
  other, and a workflow that has applied none yet applies it.

So a batch does what its events do one after the other, once those with the id zero are left out.
-/

namespace JobGraph

/-! ## Parts that count as missing -/

theorem EventKind.ofName?_of_isEmpty {name : String} (h : name.isEmpty = true) :
    ofName? name = none := by
  rw [String.isEmpty_iff] at h
  rw [h]
  rfl

theorem workflowProgress?_of_isNull {payload : Json} (h : payload.isNull = true) :
    workflowProgress? payload = none := by
  cases payload with
  | null => rfl
  | bool _ | integer _ | double _ | string _ | array _ | object _ => exact absurd h nofun

namespace Workflow

theorem jobUpdate_of_isNull {payload : Json} (h : payload.isNull = true) :
    jobUpdate payload = .error .missingJobEntry := by
  cases payload with
  | null => rfl
  | bool _ | integer _ | double _ | string _ | array _ | object _ => exact absurd h nofun

variable (w : Workflow)

theorem applyJobChange_of_isNull (id : Int) (change : JobChange) {payload : Json}
    (h : payload.isNull = true) : (w.applyJobChange id change payload).state = w := by
  rw [applyJobChange, jobUpdate_of_isNull h]
  rfl

theorem applyProgress_of_isNull (id : Int) {payload : Json} (h : payload.isNull = true) :
    (w.applyProgress id payload).state = w := by
  rw [applyProgress, workflowProgress?_of_isNull h]

/-- An event that is not well-formed has no effect by itself either, unless its id is zero. -/
theorem applyEvent_of_not_isWellFormed {event : Event} (hzero : event.id ≠ some 0)
    (h : event.isWellFormed = false) : (w.applyEvent event).state = w := by
  unfold applyEvent
  split
  · rename_i id kindName payload hid hkind hpayload
    have hmissing : kindName.isEmpty = true ∨ payload.isNull = true := by
      have hne : id ≠ 0 := fun heq => hzero (by rw [hid, heq])
      simpa [Event.isWellFormed, hid, hkind, hpayload, hne, or_iff_not_imp_left] using h
    split
    · rfl
    · rcases hmissing with hempty | hnull
      · rw [EventKind.ofName?_of_isEmpty hempty]
      · split
        · rfl
        · exact w.applyJobChange_of_isNull id _ hnull
        · exact w.applyProgress_of_isNull id hnull
  · rfl

/-- What has no effect was not applied: an event that is applied becomes the last one. -/
theorem answer_applyEvent_ne_of_state_eq {event : Event} (h : (w.applyEvent event).state = w)
    (kind : EventKind) : (w.applyEvent event).answer ≠ .ok (.applied kind) := by
  rcases w.applyEvent_cases event with ⟨_, id, -, -, hlt, hlast⟩ | ⟨hnot, -⟩
  · rw [h] at hlast
    exact absurd hlast hlt.ne
  · exact hnot kind

/-! ## One event either way -/

/-- A duplicate is none less by itself. -/
theorem applyEvent_of_isDuplicate {event : Event} (h : w.isDuplicate event = true) :
    (w.applyEvent event).state = w := by
  rcases w.applyEvent_cases event with ⟨_, id, -, hid, hlt, -⟩ | ⟨-, hsame⟩
  · rw [isDuplicate, hid, Option.any_some, decide_eq_true_eq] at h
    exact absurd hlt (not_lt.2 h)
  · exact hsame

/-- Unless its id is zero, an event that no limit defers is taken as it is by itself. -/
theorem absorb_eq_applyEvent {event : Event} (hzero : event.id ≠ some 0) :
    w.absorb event = (w.applyEvent event).state ∧
      ∀ kind, (w.takeEvent none 0 event).answer = .applied kind ↔
        (w.applyEvent event).answer = .ok (.applied kind) := by
  unfold absorb takeEvent
  dsimp only
  split
  · rename_i hformed
    rw [Bool.not_eq_true'] at hformed
    have hsame := w.applyEvent_of_not_isWellFormed hzero hformed
    exact ⟨hsame.symm, fun kind =>
      iff_of_false nofun (w.answer_applyEvent_ne_of_state_eq hsame kind)⟩
  · split
    · rename_i hduplicate
      have hsame := w.applyEvent_of_isDuplicate hduplicate
      exact ⟨hsame.symm, fun kind =>
        iff_of_false nofun (w.answer_applyEvent_ne_of_state_eq hsame kind)⟩
    · rw [show limitReached none 0 = false from rfl, if_neg Bool.false_ne_true]
      refine ⟨rfl, fun kind => ?_⟩
      dsimp only
      split
      · rename_i other hanswer
        rw [hanswer]
        simp
      · rename_i hanswer
        rw [hanswer]
        exact iff_of_false nofun nofun
      · rename_i error hanswer
        rw [hanswer]
        exact iff_of_false nofun nofun

/-- An event with the id zero has no effect in a batch. -/
theorem absorb_of_id_eq_zero {event : Event} (h : event.id = some 0) : w.absorb event = w := by
  have hformed : event.isWellFormed = false := by simp [Event.isWellFormed, h]
  simp [absorb, takeEvent, hformed]

/-! ## Lists of events -/

/-- The workflow after events that come by themselves, one after the other, whatever becomes of
each. -/
def applySingly (w : Workflow) (events : List Event) : Workflow :=
  events.foldl (fun w event => (w.applyEvent event).state) w

theorem foldl_absorb_eq_applySingly (events : List Event) :
    events.foldl absorb w = w.applySingly (events.filter fun event => event.id ≠ some 0) := by
  induction events generalizing w with
  | nil => rfl
  | cons event rest ih =>
      rw [List.foldl_cons, ih]
      by_cases hzero : event.id = some 0
      · rw [w.absorb_of_id_eq_zero hzero, List.filter_cons_of_neg (by simpa using hzero)]
      · rw [(w.absorb_eq_applyEvent hzero).1, List.filter_cons_of_pos (by simpa using hzero)]
        rfl

/-- Once an event with a greater id was applied, the id zero is that of a duplicate. -/
theorem applySingly_filter_ne_zero {w : Workflow} (h : 0 ≤ w.lastEvent) (events : List Event) :
    w.applySingly (events.filter fun event => event.id ≠ some 0) = w.applySingly events := by
  induction events generalizing w with
  | nil => rfl
  | cons event rest ih =>
      by_cases hzero : event.id = some 0
      · have hsame : (w.applyEvent event).state = w :=
          w.applyEvent_of_isDuplicate (by simpa [isDuplicate, hzero] using h)
        rw [List.filter_cons_of_neg (by simpa using hzero), ih h, applySingly, applySingly,
          List.foldl_cons, hsame]
      · have hlater : 0 ≤ (w.applyEvent event).state.lastEvent := by
          rw [← (w.absorb_eq_applyEvent hzero).1]
          exact h.trans (w.lastEvent_le_absorb event)
        rw [List.filter_cons_of_pos (by simpa using hzero)]
        exact ih hlater

/-- **Batches and single events.**  A batch without a limit leads to where its events lead one after
the other, except for those with the id zero, which it rejects.  All others are accepted in a batch
as they are by themselves; and once an event was applied, the id zero makes no difference. -/
theorem applyEvents_none_eq_applySingly (w : Workflow) (events : List Event) :
    (w.applyEvents events none).state =
        w.applySingly (events.filter fun event => event.id ≠ some 0) ∧
      (0 ≤ w.lastEvent → (w.applyEvents events none).state = w.applySingly events) ∧
      ∀ (current : Workflow) (event : Event), event.id ≠ some 0 → ∀ kind,
        (current.takeEvent none 0 event).answer = .applied kind ↔
          (current.applyEvent event).answer = .ok (.applied kind) := by
  have hbatch : (w.applyEvents events none).state =
      w.applySingly (events.filter fun event => event.id ≠ some 0) := by
    rw [applyEvents_none_state, foldl_absorb_eq_applySingly]
  refine ⟨hbatch, fun hlast => ?_, fun current event hzero => (current.absorb_eq_applyEvent hzero).2⟩
  rw [hbatch, applySingly_filter_ne_zero hlast]

/-- A report of progress. -/
def progressReport (id percentage : Int) : Event :=
  .new id .workflowProgress (.object [("workflowProgress", .integer percentage)])

theorem applySingly_progressReport_late :
    0 ≤ ((new none .default).applySingly [progressReport 3 30]).lastEvent ∧
      (((new none .default).applySingly [progressReport 3 30]).applyEvents
          [progressReport 0 50, progressReport 4 40, progressReport 4 60] none).state =
        ((new none .default).applySingly [progressReport 3 30]).applySingly
          [progressReport 0 50, progressReport 4 40, progressReport 4 60] := by
  have hlast : 0 ≤ ((new none .default).applySingly [progressReport 3 30]).lastEvent := by
    decide +kernel
  exact ⟨hlast, (applyEvents_none_eq_applySingly _ _).2.1 hlast⟩

/-- A workflow without events applies a report with the id zero when it comes by itself, and
not in a batch. -/
theorem applyEvents_ne_applySingly_progressReport_zero :
    ((new none .default).applyEvents [progressReport 0 50] none).state.progress = 0 ∧
      ((new none .default).applySingly [progressReport 0 50]).progress = 50 ∧
      ((new none .default).applyEvents [progressReport 0 50] none).state ≠
        (new none .default).applySingly [progressReport 0 50] := by
  have hbatch : ((new none .default).applyEvents [progressReport 0 50] none).state.progress = 0 := by
    decide +kernel
  have hsingle : ((new none .default).applySingly [progressReport 0 50]).progress = 50 := by
    decide +kernel
  refine ⟨hbatch, hsingle, fun heq => ?_⟩
  rw [heq, hsingle] at hbatch
  exact absurd hbatch (by decide)

end Workflow

end JobGraph
