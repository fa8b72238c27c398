import JobGraph.Proofs.Workflow.Redelivery

/-!
# One job event at a time

A batch that may apply a single job event absorbs its events up to the first job event that is
applied, and puts off what follows.  When there is none, it absorbs all its events like any batch.

Playing a log in such batches goes from one applied job event to the next.  It looks at the workflow
between two batches only, so it stops behind the first job event that leaves the workflow complete,
and not where progress alone completes it.
-/

namespace JobGraph.Workflow

variable {w : Workflow} {events : List Event}

/-! ## Applied job events -/

/-- Whether an event is about a job and would be applied now. -/
def appliesJob (w : Workflow) (event : Event) : Bool :=
  match (w.takeEvent none 0 event).answer with
  | .applied kind => kind.isJobEvent
  | _ => false

/-- The workflow behind the first job event that is applied, and the events that follow. -/
def firstJob? : Workflow → List Event → Option (Workflow × List Event)
  | _, [] => none
  | w, event :: rest =>
      if w.appliesJob event then some (w.absorb event, rest) else firstJob? (w.absorb event) rest

theorem appliesJob_eq_false_of_absorb {event : Event} (h : w.absorb event = w) :
    w.appliesJob event = false := by
  rcases w.absorb_cases event with ⟨_, id, -, -, hlt, hlast⟩ | ⟨hnot, -, -⟩
  · rw [h] at hlast
    omega
  · unfold appliesJob
    split
    · rename_i kind happlied
      exact absurd happlied (hnot kind)
    · rfl

theorem lastEvent_of_appliesJob {event : Event} (h : w.appliesJob event = true) :
    ∃ id, event.id = some id ∧ w.lastEvent < id ∧ (w.absorb event).lastEvent = id := by
  rcases w.absorb_cases event with ⟨_, id, -, hid, hlt, hlast⟩ | ⟨-, -, hsame⟩
  · exact ⟨id, hid, hlt, hlast⟩
  · rw [appliesJob_eq_false_of_absorb hsame] at h
    exact absurd h Bool.false_ne_true

/-- An applied job event counts. -/
theorem jobEvents_enter_of_appliesJob (report : BatchReport) {event : Event}
    (h : w.appliesJob event = true) :
    (report.enter event.id (w.takeEvent none 0 event).answer).jobEvents = report.jobEvents + 1 := by
  unfold appliesJob at h
  split at h
  · rename_i kind happlied
    rw [happlied, BatchReport.enter]
    simp [h]
  · exact absurd h Bool.false_ne_true

/-- Nothing else does. -/
theorem jobEvents_enter_of_not_appliesJob (report : BatchReport) {event : Event}
    (h : w.appliesJob event = false) :
    (report.enter event.id (w.takeEvent none 0 event).answer).jobEvents = report.jobEvents := by
  unfold appliesJob at h
  split at h
  · rename_i kind happlied
    rw [happlied, BatchReport.enter]
    simp [h]
  · rename_i hnot
    exact report.jobEvents_enter event.id hnot

/-! ## Batches of one job event -/

theorem takeEvents_of_firstJob?_eq_none {limit : Option Nat} {report : BatchReport}
    (hlimit : limitReached limit report.jobEvents = false) (h : firstJob? w events = none) :
    (takeEvents limit w report events).state = events.foldl absorb w ∧
      (takeEvents limit w report events).answer.deferred = report.deferred := by
  induction events generalizing w report with
  | nil => exact ⟨rfl, rfl⟩
  | cons event rest ih =>
      unfold firstJob? at h
      split at h
      · exact absurd h nofun
      · rename_i hjob
        rw [Bool.not_eq_true] at hjob
        rw [takeEvents, takeEvent_of_not_reached hlimit event]
        have hentered := jobEvents_enter_of_not_appliesJob report hjob
        have hdeferred := report.deferred_enter event.id (w.answer_takeEvent_ne_deferred event)
        obtain ⟨hstate, hrest⟩ := ih (hentered ▸ hlimit) h
        exact ⟨hstate, hrest.trans hdeferred⟩

theorem takeEvents_of_firstJob?_eq_some {report : BatchReport} {after : Workflow}
    {left : List Event} (hreport : report.jobEvents = 0)
    (h : firstJob? w events = some (after, left)) :
    (takeEvents (some 1) w report events).state = after := by
  induction events generalizing w report with
  | nil => exact absurd h nofun
  | cons event rest ih =>
      have hlimit : limitReached (some 1) report.jobEvents = false := by
        rw [hreport]
        rfl
      rw [takeEvents, takeEvent_of_not_reached hlimit event]
      unfold firstJob? at h
      split at h
      · -- the limit is reached now, and the rest has no effect
        rename_i hjob
        obtain ⟨rfl, -⟩ := Prod.mk.inj (Option.some.inj h)
        refine (takeEvents_of_reached rest ?_).1
        rw [jobEvents_enter_of_appliesJob report hjob, hreport]
        rfl
      · rename_i hjob
        rw [Bool.not_eq_true] at hjob
        exact ih ((jobEvents_enter_of_not_appliesJob report hjob).trans hreport) h

/-- Without a job event that is applied, a batch is absorbed whatever its limit. -/
theorem applyEvents_of_firstJob?_eq_none {limit : Option Nat} (hlimit : limitReached limit 0 = false)
    (h : firstJob? w events = none) :
    (w.applyEvents events limit).state = events.foldl absorb w ∧
      (w.applyEvents events limit).answer.deferred = 0 :=
  takeEvents_of_firstJob?_eq_none hlimit h

theorem applyEvents_one_of_firstJob?_eq_some {after : Workflow} {left : List Event}
    (h : firstJob? w events = some (after, left)) : (w.applyEvents events (some 1)).state = after :=
  takeEvents_of_firstJob?_eq_some rfl h

theorem firstJob?_eq_none_of_forall (h : ∀ event ∈ events, w.absorb event = w) :
    firstJob? w events = none := by
  induction events with
  | nil => rfl
  | cons event rest ih =>
      obtain ⟨hevent, hrest⟩ := List.forall_mem_cons.1 h
      rw [firstJob?, appliesJob_eq_false_of_absorb hevent, if_neg Bool.false_ne_true, hevent]
      exact ih hrest

/-- Events without effect in front do not matter. -/
theorem firstJob?_append {before : List Event} (h : ∀ event ∈ before, w.absorb event = w)
    (events : List Event) : firstJob? w (before ++ events) = firstJob? w events := by
  induction before with
  | nil => rfl
  | cons event rest ih =>
      obtain ⟨hevent, hrest⟩ := List.forall_mem_cons.1 h
      rw [List.cons_append, firstJob?, appliesJob_eq_false_of_absorb hevent,
        if_neg Bool.false_ne_true, hevent]
      exact ih hrest

/-- Events that are not newer than the last one may be left out. -/
theorem Thinned.map_fst_firstJob? {last : Int} {batch : List Event} (h : Thinned last events batch)
    (hlast : last ≤ w.lastEvent) :
    (w.firstJob? batch).map Prod.fst = (w.firstJob? events).map Prod.fst := by
  induction h generalizing w with
  | nil => rfl
  | keep event _ ih =>
      rw [firstJob?, firstJob?]
      split
      · rfl
      · exact ih (hlast.trans (w.lastEvent_le_absorb event))
  | @leaveOut events batch event id hid hold _ ih =>
      have hsame := w.absorb_of_id_le hid (hold.trans hlast)
      rw [ih hlast, firstJob?, appliesJob_eq_false_of_absorb hsame, if_neg Bool.false_ne_true,
        hsame]

theorem firstJob?_eq_some {after : Workflow} {left : List Event}
    (h : firstJob? w events = some (after, left)) :
    ∃ before event, events = before ++ event :: left ∧
      (before.foldl absorb w).appliesJob event = true ∧
        after = (before.foldl absorb w).absorb event := by
  induction events generalizing w with
  | nil => exact absurd h nofun
  | cons event rest ih =>
      unfold firstJob? at h
      split at h
      · rename_i hjob
        obtain ⟨rfl, rfl⟩ := Prod.mk.inj (Option.some.inj h)
        exact ⟨[], event, rfl, hjob, rfl⟩
      · obtain ⟨before, found, rfl, hjob, hafter⟩ := ih h
        exact ⟨event :: before, found, rfl, hjob, hafter⟩

/-! ## Playing a log -/

/-- Absorbs a log up to the first job event that is applied and leaves the workflow complete. -/
def playSingly : Workflow → List Event → Workflow
  | w, [] => w
  | w, event :: rest =>
      if w.appliesJob event && (w.absorb event).isComplete then w.absorb event
      else playSingly (w.absorb event) rest

theorem playSingly_of_firstJob?_eq_none (h : firstJob? w events = none) :
    playSingly w events = events.foldl absorb w := by
  induction events generalizing w with
  | nil => rfl
  | cons event rest ih =>
      unfold firstJob? at h
      split at h
      · exact absurd h nofun
      · rename_i hjob
        rw [playSingly, if_neg (by simp [hjob])]
        exact ih h

theorem playSingly_of_firstJob?_eq_some {after : Workflow} {left : List Event}
    (h : firstJob? w events = some (after, left)) :
    playSingly w events = if after.isComplete then after else playSingly after left := by
  induction events generalizing w with
  | nil => exact absurd h nofun
  | cons event rest ih =>
      unfold firstJob? at h
      split at h
      · rename_i hjob
        obtain ⟨rfl, rfl⟩ := Prod.mk.inj (Option.some.inj h)
        rw [playSingly, hjob, Bool.true_and]
      · rename_i hjob
        rw [playSingly, if_neg (by simp [hjob])]
        exact ih h

/-! ## Where playing stops -/

/-- An event that is applied, is about a job and leaves the workflow complete. -/
def Completes (w : Workflow) (event : Event) : Prop :=
  (w.applyEvents [event] none).answer.jobEvents = 1 ∧
    (w.applyEvents [event] none).state.isComplete = true

/-- The event at a place of a log completes the workflow that the events before it leave. -/
def CompletesAt (w : Workflow) (log : List Event) (place : Nat) : Prop :=
  ∃ event, log[place]? = some event ∧
    Completes (w.applyEvents (log.take place) none).state event

/-- So many events of a log are those up to the first one that completes the workflow, or all of
them when there is none. -/
structure StopsAfter (w : Workflow) (log : List Event) (count : Nat) : Prop where
  not_completesAt : ∀ place, place + 1 < count → ¬ CompletesAt w log place
  stops : (∃ place, count = place + 1 ∧ CompletesAt w log place) ∨ count = log.length

theorem completes_iff {event : Event} :
    Completes w event ↔ w.appliesJob event = true ∧ (w.absorb event).isComplete = true := by
  have hstate : (w.applyEvents [event] none).state = w.absorb event :=
    w.applyEvents_none_state [event]
  have hjobs : (w.applyEvents [event] none).answer.jobEvents = 1 ↔ w.appliesJob event = true := by
    show (BatchReport.empty.enter event.id (w.takeEvent none 0 event).answer).jobEvents = 1 ↔ _
    cases hjob : w.appliesJob event with
    | true => simp [jobEvents_enter_of_appliesJob _ hjob, BatchReport.empty]
    | false => simp [jobEvents_enter_of_not_appliesJob _ hjob, BatchReport.empty]
  rw [Completes, hstate, hjobs]

theorem completesAt_zero {event : Event} {rest : List Event} :
    CompletesAt w (event :: rest) 0 ↔ Completes w event := by
  constructor
  · rintro ⟨first, hfirst, hcompletes⟩
    rw [List.getElem?_cons_zero, Option.some.injEq] at hfirst
    rwa [← hfirst] at hcompletes
  · exact fun h => ⟨event, rfl, h⟩

theorem completesAt_succ {event : Event} {rest : List Event} {place : Nat} :
    CompletesAt w (event :: rest) (place + 1) ↔ CompletesAt (w.absorb event) rest place := by
  unfold CompletesAt
  rw [List.getElem?_cons_succ, applyEvents_none_state, applyEvents_none_state, List.take_succ_cons,
    List.foldl_cons]

/-- Playing a log absorbs a prefix of it. -/
theorem exists_playSingly_eq (w : Workflow) (log : List Event) :
    ∃ count, StopsAfter w log count ∧ playSingly w log = (log.take count).foldl absorb w := by
  induction log generalizing w with
  | nil => exact ⟨0, ⟨fun place h => absurd h (Nat.not_lt_zero _), .inr rfl⟩, rfl⟩
  | cons event rest ih =>
      by_cases hcompletes : Completes w event
      · have hfirst : ∀ place, place + 1 < 1 → ¬ CompletesAt w (event :: rest) place := by omega
        refine ⟨1, ⟨hfirst, .inl ⟨0, rfl, completesAt_zero.2 hcompletes⟩⟩, ?_⟩
        rw [completes_iff] at hcompletes
        rw [playSingly, if_pos (by simp [hcompletes])]
        rfl
      · -- places in the rest are one less than in the log
        obtain ⟨count, hstops, hplay⟩ := ih (w.absorb event)
        refine ⟨count + 1, ⟨fun place hplace => ?_, ?_⟩, ?_⟩
        · cases place with
          | zero => rwa [completesAt_zero]
          | succ place =>
              rw [completesAt_succ]
              exact hstops.not_completesAt place (by omega)
        · rcases hstops.stops with ⟨place, rfl, hat⟩ | hall
          · exact .inl ⟨place + 1, rfl, completesAt_succ.2 hat⟩
          · exact .inr (by rw [hall, List.length_cons])
        · rw [completes_iff] at hcompletes
          rw [playSingly, if_neg (by simpa using hcompletes), hplay]
          rfl

/-! ## What is lost behind the stop -/

theorem lastEvent_le_foldl_absorb (w : Workflow) (events : List Event) :
    w.lastEvent ≤ (events.foldl absorb w).lastEvent := by
  induction events generalizing w with
  | nil => exact le_rfl
  | cons event rest ih => exact (w.lastEvent_le_absorb event).trans (ih (w.absorb event))

/-- The last event tells whether anything was absorbed. -/
theorem foldl_absorb_eq_of_lastEvent_eq (h : (events.foldl absorb w).lastEvent = w.lastEvent) :
    events.foldl absorb w = w := by
  induction events generalizing w with
  | nil => rfl
  | cons event rest ih =>
      rw [List.foldl_cons] at h ⊢
      have hle := lastEvent_le_foldl_absorb (w.absorb event) rest
      rcases w.absorb_eq_or_lt event with hsame | ⟨id, -, hlt, hlast⟩
      · rw [hsame] at h ⊢
        exact ih h
      · omega

theorem applied_le_takeEvents (w : Workflow) (report : BatchReport) (events : List Event) :
    report.applied ≤ (takeEvents none w report events).answer.applied := by
  induction events generalizing w report with
  | nil => exact le_rfl
  | cons event rest ih =>
      refine le_trans ?_ (ih _ _)
      cases (w.takeEvent none report.jobEvents event).answer <;> simp [BatchReport.enter]

theorem applied_takeEvents_iff (report : BatchReport) :
    (takeEvents none w report events).answer.applied = report.applied ↔
      events.foldl absorb w = w := by
  induction events generalizing w report with
  | nil => exact iff_of_true rfl rfl
  | cons event rest ih =>
      rw [takeEvents, takeEvent_of_not_reached rfl event, List.foldl_cons]
      dsimp only
      rcases w.absorb_cases event with ⟨kind, id, happlied, -, hlt, hlast⟩ | ⟨hnot, -, hsame⟩
      · -- an event that is applied counts, and its id stays
        have hle := applied_le_takeEvents (w.absorb event)
          (report.enter event.id (.applied kind)) rest
        have hcount : (report.enter event.id (.applied kind)).applied = report.applied + 1 := rfl
        have hlater := lastEvent_le_foldl_absorb (w.absorb event) rest
        rw [happlied]
        refine iff_of_false (fun heq => ?_) (fun heq => ?_)
        · change (takeEvents none (w.absorb event) _ rest).answer.applied = _ at heq
          omega
        · rw [heq] at hlater
          omega
      · have hcount : (report.enter event.id (w.takeEvent none 0 event).answer).applied =
            report.applied := by
          cases hanswer : (w.takeEvent none 0 event).answer with
          | applied kind => exact absurd hanswer (hnot kind)
          | duplicate => rfl
          | deferred => rfl
          | rejected error => rfl
        have := ih (w := w.absorb event) (report.enter event.id (w.takeEvent none 0 event).answer)
        rw [hcount, hsame] at this
        rw [show (w.takeEvent none 0 event).state = w from hsame, hsame]
        exact this

theorem applied_applyEvents_eq_zero_iff :
    (w.applyEvents events none).answer.applied = 0 ↔ events.foldl absorb w = w :=
  applied_takeEvents_iff .empty

end JobGraph.Workflow
