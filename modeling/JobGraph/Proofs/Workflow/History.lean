import JobGraph.Proofs.Workflow.Lookup
import Mathlib.Data.List.DropRight

/-!
# Histories

The history of a run is the list of what happened in it, as far as the order of events goes: job
lists were loaded, events were applied, and a client was asked for the events after some id.

`Recorded history last` says that a history may be that of a run after which `last` is the id of the
last event.  A load sets this id back, an event is applied only if its id is greater, and every
question is one for the events after it; nothing else touches it.  So between two loads ids are
applied in strictly ascending order, and the questions never go back: `Ordered`.
-/

namespace JobGraph

/-- Something that matters for the order of events. -/
inductive Occurrence where
  /-- A job list was loaded. -/
  | loaded
  /-- An event with that id was applied. -/
  | applied (id : Int)
  /-- A client was asked for the events after that id. -/
  | asked (after : Int)
  deriving DecidableEq

namespace Occurrence

/-- The id of an event that was applied. -/
def appliedId? : Occurrence → Option Int
  | .applied id => some id
  | .loaded | .asked _ => none

/-- The id after which a client was asked for events. -/
def askedAfter? : Occurrence → Option Int
  | .asked after => some after
  | .loaded | .applied _ => none

/-- The part of a history behind its last load. -/
def sinceLoad (history : List Occurrence) : List Occurrence :=
  history.rtakeWhile (· ≠ .loaded)

/-- The id that was applied last since the last load, or minus one. -/
def lastApplied (history : List Occurrence) : Int :=
  ((sinceLoad history).filterMap appliedId?).getLast?.getD (-1)

theorem lastApplied_concat_loaded (history : List Occurrence) :
    lastApplied (history ++ [.loaded]) = -1 := by
  simp [lastApplied, sinceLoad]

theorem lastApplied_concat_applied (history : List Occurrence) (id : Int) :
    lastApplied (history ++ [.applied id]) = id := by
  simp [lastApplied, sinceLoad, appliedId?]

theorem lastApplied_concat_asked (history : List Occurrence) (after : Int) :
    lastApplied (history ++ [.asked after]) = lastApplied history := by
  simp [lastApplied, sinceLoad, appliedId?]

end Occurrence

open Occurrence

/-! ## Order -/

/-- Events were applied and asked for in order. -/
structure Ordered (history : List Occurrence) : Prop where
  /-- Between two loads the ids of the events applied ascend, so that no id is applied twice. -/
  applied_lt : ∀ between, between <:+: history → .loaded ∉ between →
    (between.filterMap appliedId?).Pairwise (· < ·)
  /-- Between two loads the ids asked with never descend. -/
  asked_le : ∀ between, between <:+: history → .loaded ∉ between →
    (between.filterMap askedAfter?).Pairwise (· ≤ ·)
  /-- A client is asked for the events after the one applied last. -/
  asked_eq : ∀ before after, before ++ [.asked after] <+: history → after = lastApplied before

/-- A history after which that is the id of the last event. -/
inductive Recorded : List Occurrence → Int → Prop
  | nil : Recorded [] (-1)
  | loaded {history : List Occurrence} {last : Int} (h : Recorded history last) :
      Recorded (history ++ [.loaded]) (-1)
  | applied {history : List Occurrence} {last id : Int} (h : Recorded history last)
      (hlt : last < id) : Recorded (history ++ [.applied id]) id
  | asked {history : List Occurrence} {last : Int} (h : Recorded history last) :
      Recorded (history ++ [.asked last]) last

namespace Recorded

variable {history : List Occurrence} {last : Int}

theorem eq_lastApplied (h : Recorded history last) : last = lastApplied history := by
  induction h with
  | nil => rfl
  | loaded _ _ => rw [lastApplied_concat_loaded]
  | applied _ _ _ => rw [lastApplied_concat_applied]
  | asked _ ih => rw [lastApplied_concat_asked, ← ih]

/-- What lies within a longer history lies within the old one, or ends with what was added. -/
theorem infix_concat_cases {between : List Occurrence} {latest : Occurrence}
    (hwithin : between <:+: history ++ [latest]) :
    between <:+: history ∨ ∃ before, between = before ++ [latest] ∧ before <:+ history := by
  rcases List.infix_concat_iff.1 hwithin with hsuffix | hbefore
  · rcases List.suffix_concat_iff.1 hsuffix with rfl | hends
    · exact .inl List.nil_infix
    · exact .inr hends
  · exact .inl hbefore

theorem pairwise_concat {ids : List Int} {latest : Int} {related : Int → Int → Prop}
    (hids : ids.Pairwise related) (hlatest : ∀ id ∈ ids, related id latest) :
    (ids ++ [latest]).Pairwise related := by
  refine List.pairwise_append.2 ⟨hids, List.pairwise_singleton _ _, fun id hid new hnew => ?_⟩
  rw [List.mem_singleton.1 hnew]
  exact hlatest id hid

/-- Since the last load, neither ids that were applied nor ids asked with are beyond the last one. -/
theorem le_last (h : Recorded history last) {since : List Occurrence} (hsuffix : since <:+ history)
    (hload : .loaded ∉ since) :
    (∀ id ∈ since.filterMap appliedId?, id ≤ last) ∧
      ∀ after ∈ since.filterMap askedAfter?, after ≤ last := by
  induction h generalizing since with
  | nil =>
      rw [List.suffix_nil.1 hsuffix]
      exact ⟨nofun, nofun⟩
  | loaded _ _ =>
      rcases List.suffix_concat_iff.1 hsuffix with rfl | ⟨before, rfl, -⟩
      · exact ⟨nofun, nofun⟩
      · simp at hload
  | @applied history last id _ hlt ih =>
      rcases List.suffix_concat_iff.1 hsuffix with rfl | ⟨before, rfl, hbefore⟩
      · exact ⟨nofun, nofun⟩
      · obtain ⟨hids, hafters⟩ := ih hbefore fun hmem => hload (List.mem_append_left _ hmem)
        simp only [List.filterMap_append, List.forall_mem_append]
        refine ⟨⟨fun other hother => (hids other hother).trans hlt.le, by simp [appliedId?]⟩,
          fun after hafter => (hafters after hafter).trans hlt.le, by simp [askedAfter?]⟩
  | @asked history last _ ih =>
      rcases List.suffix_concat_iff.1 hsuffix with rfl | ⟨before, rfl, hbefore⟩
      · exact ⟨nofun, nofun⟩
      · obtain ⟨hids, hafters⟩ := ih hbefore fun hmem => hload (List.mem_append_left _ hmem)
        simp only [List.filterMap_append, List.forall_mem_append]
        exact ⟨⟨hids, by simp [appliedId?]⟩, hafters, by simp [askedAfter?]⟩

/-- Between two loads, ids are applied in ascending order and the ids asked with never descend. -/
theorem pairwise (h : Recorded history last) {between : List Occurrence}
    (hwithin : between <:+: history) (hload : .loaded ∉ between) :
    (between.filterMap appliedId?).Pairwise (· < ·) ∧
      (between.filterMap askedAfter?).Pairwise (· ≤ ·) := by
  induction h generalizing between with
  | nil =>
      rw [List.infix_nil.1 hwithin]
      exact ⟨.nil, .nil⟩
  | loaded _ ih =>
      rcases infix_concat_cases hwithin with hbefore | ⟨before, rfl, -⟩
      · exact ih hbefore hload
      · simp at hload
  | @applied history last id hrecorded hlt ih =>
      rcases infix_concat_cases hwithin with hbefore | ⟨before, rfl, hbefore⟩
      · exact ih hbefore hload
      · have hload' : .loaded ∉ before := fun hmem => hload (List.mem_append_left _ hmem)
        obtain ⟨hids, hafters⟩ := ih hbefore.isInfix hload'
        have hle := (hrecorded.le_last hbefore hload').1
        rw [List.filterMap_append, List.filterMap_append]
        exact ⟨pairwise_concat hids fun old hold => (hle old hold).trans_lt hlt,
          (List.append_nil _).symm ▸ hafters⟩
  | @asked history last hrecorded ih =>
      rcases infix_concat_cases hwithin with hbefore | ⟨before, rfl, hbefore⟩
      · exact ih hbefore hload
      · have hload' : .loaded ∉ before := fun hmem => hload (List.mem_append_left _ hmem)
        obtain ⟨hids, hafters⟩ := ih hbefore.isInfix hload'
        have hle := (hrecorded.le_last hbefore hload').2
        rw [List.filterMap_append, List.filterMap_append]
        exact ⟨(List.append_nil _).symm ▸ hids, pairwise_concat hafters hle⟩

theorem asked_eq (h : Recorded history last) {before : List Occurrence} {after : Int}
    (hbegins : before ++ [.asked after] <+: history) : after = lastApplied before := by
  induction h with
  | nil => simp at hbegins
  | loaded _ ih =>
      rcases List.prefix_concat_iff.1 hbegins with heq | hbefore
      · simp at heq
      · exact ih hbefore
  | applied _ _ ih =>
      rcases List.prefix_concat_iff.1 hbegins with heq | hbefore
      · simp at heq
      · exact ih hbefore
  | asked hrecorded ih =>
      rcases List.prefix_concat_iff.1 hbegins with heq | hbefore
      · obtain ⟨rfl, hlast⟩ := List.append_inj' heq rfl
        simp only [List.cons.injEq, Occurrence.asked.injEq, and_true] at hlast
        rw [hlast]
        exact hrecorded.eq_lastApplied
      · exact ih hbefore

/-- **Order.**  What is recorded step by step is in order as a whole. -/
theorem ordered (h : Recorded history last) : Ordered history where
  applied_lt _ hwithin hload := (h.pairwise hwithin hload).1
  asked_le _ hwithin hload := (h.pairwise hwithin hload).2
  asked_eq _ _ hbegins := h.asked_eq hbegins

end Recorded

/-! ## Histories of workflows -/

/-- What the fate of an event adds to a history. -/
def EventFate.occurrence? (event : Event) : EventFate → Option Occurrence
  | .applied _ => event.id.map .applied
  | .duplicate | .deferred | .rejected _ => none

/-- What becomes of the events of a batch, one by one. -/
def Workflow.fates (limit : Option Nat) :
    Workflow → BatchReport → List Event → List EventFate
  | _, _, [] => []
  | w, report, event :: rest =>
      let taken := w.takeEvent limit report.jobEvents event
      taken.answer :: fates limit taken.state (report.enter event.id taken.answer) rest

namespace Workflow

/-- What a batch adds to a history. -/
def batchOccurrences (w : Workflow) (events : List Event) (limit : Option Nat) : List Occurrence :=
  (events.zip (fates limit w .empty events)).filterMap fun taken => taken.2.occurrence? taken.1

/-- What an event by itself adds to a history, by the answer to it. -/
def eventOccurrences (event : Event) : Except WorkflowError EventOutcome → List Occurrence
  | .ok (.applied _) => (event.id.map .applied).toList
  | .ok .duplicate | .error _ => []

/-- What a load adds to a history, by the answer to it. -/
def loadOccurrences : Except WorkflowError LayeringReport → List Occurrence
  | .ok _ => [.loaded]
  | .error _ => []

/-- What an operation adds to a history. -/
def occurrences (w : Workflow) : Operation → List Occurrence
  | .load entries => loadOccurrences (w.load entries).answer
  | .applyEvents events limit => w.batchOccurrences events limit
  | .applyEvent event => eventOccurrences event (w.applyEvent event).answer
  | .updateJob _ | .setProgress _ | .select _ | .hover _ => []

/-- The history of a run. -/
def history (w : Workflow) : List Operation → List Occurrence
  | [] => []
  | operation :: rest => w.occurrences operation ++ (w.perform operation).history rest

/-- The account of a batch tells what became of its events. -/
theorem takeEvents_answer (limit : Option Nat) (w : Workflow) (report : BatchReport)
    (events : List Event) :
    (takeEvents limit w report events).answer =
      (events.zip (fates limit w report events)).foldl
        (fun report taken => report.enter taken.1.id taken.2) report := by
  induction events generalizing w report with
  | nil => rfl
  | cons event rest ih => exact ih _ _

theorem takeEvent_cases (w : Workflow) (limit : Option Nat) (jobEvents : Nat) (event : Event) :
    (∃ kind id, (w.takeEvent limit jobEvents event).answer = .applied kind ∧ event.id = some id ∧
        w.lastEvent < id ∧ (w.takeEvent limit jobEvents event).state.lastEvent = id) ∨
      ((∀ kind, (w.takeEvent limit jobEvents event).answer ≠ .applied kind) ∧
        (w.takeEvent limit jobEvents event).state = w) := by
  cases hreached : limitReached limit jobEvents with
  | true =>
      obtain ⟨hstate, hnot, -⟩ := takeEvent_of_reached (w := w) hreached event
      exact .inr ⟨hnot, hstate⟩
  | false =>
      rw [takeEvent_of_not_reached hreached event]
      rcases w.absorb_cases event with happlied | ⟨hnot, -, hsame⟩
      · exact .inl happlied
      · exact .inr ⟨hnot, hsame⟩

end Workflow

namespace Recorded

variable {history : List Occurrence} {w : Workflow}

theorem append_nil {last : Int} (h : Recorded history last) : Recorded (history ++ []) last := by
  rwa [List.append_nil]

/-- One event of a batch. -/
theorem takeEvent (h : Recorded history w.lastEvent) (limit : Option Nat) (jobEvents : Nat)
    (event : Event) :
    Recorded (history ++ ((w.takeEvent limit jobEvents event).answer.occurrence? event).toList)
      (w.takeEvent limit jobEvents event).state.lastEvent := by
  rcases w.takeEvent_cases limit jobEvents event with
    ⟨kind, id, happlied, hid, hlt, hlast⟩ | ⟨hnot, hsame⟩
  · rw [happlied, hlast, EventFate.occurrence?, hid]
    exact h.applied hlt
  · rw [hsame]
    cases hfate : (w.takeEvent limit jobEvents event).answer with
    | applied kind => exact absurd hfate (hnot kind)
    | duplicate | deferred | rejected _ => exact h.append_nil

theorem takeEvents (h : Recorded history w.lastEvent) (limit : Option Nat) (report : BatchReport)
    (events : List Event) :
    Recorded
      (history ++ (events.zip (Workflow.fates limit w report events)).filterMap fun taken =>
        taken.2.occurrence? taken.1)
      (Workflow.takeEvents limit w report events).state.lastEvent := by
  induction events generalizing history w report with
  | nil => exact h.append_nil
  | cons event rest ih =>
      have hfirst := h.takeEvent limit report.jobEvents event
      have hrest :=
        ih hfirst (report.enter event.id (w.takeEvent limit report.jobEvents event).answer)
      rw [List.append_assoc] at hrest
      rw [Workflow.fates, List.zip_cons_cons, List.filterMap_cons, Workflow.takeEvents]
      cases hfate : (w.takeEvent limit report.jobEvents event).answer.occurrence? event with
      | none =>
          rw [hfate] at hrest
          exact hrest
      | some occurrence =>
          rw [hfate] at hrest
          exact hrest

theorem applyEvents (h : Recorded history w.lastEvent) (events : List Event) (limit : Option Nat) :
    Recorded (history ++ w.batchOccurrences events limit)
      (w.applyEvents events limit).state.lastEvent :=
  h.takeEvents limit .empty events

theorem load (h : Recorded history w.lastEvent) (entries : List JobEntry) :
    Recorded (history ++ Workflow.loadOccurrences (w.load entries).answer)
      (w.load entries).state.lastEvent := by
  unfold Workflow.load
  split
  · exact h.append_nil
  · exact h.loaded

theorem applyEvent (h : Recorded history w.lastEvent) (event : Event) :
    Recorded (history ++ Workflow.eventOccurrences event (w.applyEvent event).answer)
      (w.applyEvent event).state.lastEvent := by
  rcases w.applyEvent_cases event with ⟨kind, id, happlied, hid, hlt, hlast⟩ | ⟨hnot, hsame⟩
  · rw [happlied, hlast, Workflow.eventOccurrences, hid]
    exact h.applied hlt
  · rw [hsame]
    cases hanswer : (w.applyEvent event).answer with
    | error _ => exact h.append_nil
    | ok outcome =>
        cases outcome with
        | applied kind => exact absurd hanswer (hnot kind)
        | duplicate => exact h.append_nil

end Recorded

namespace Workflow

variable {w : Workflow}

theorem lastEvent_updateJob (w : Workflow) (update : Job) :
    (w.updateJob update).state.lastEvent = w.lastEvent := by
  unfold updateJob
  split
  · rfl
  · rename_i updated key hok
    obtain ⟨_, -, -, rfl⟩ := mergeUpdate_eq_ok hok
    split <;> rfl

theorem lastEvent_modifyJob? (w : Workflow) (key : Option NodeKey) (change : Job → Job) :
    (w.modifyJob? key change).lastEvent = w.lastEvent := by
  cases key <;> rfl

theorem lastEvent_select (w : Workflow) (ref : Option JobRef) :
    (w.select ref).state.lastEvent = w.lastEvent := by
  unfold select setSelected
  split
  · rfl
  · simp only [lastEvent_modifyJob?]

theorem lastEvent_hover (w : Workflow) (ref : Option JobRef) :
    (w.hover ref).state.lastEvent = w.lastEvent := by
  unfold hover setHovered
  split
  · rfl
  · split
    · rfl
    · simp only [lastEvent_modifyJob?]

end Workflow

/-- One operation is recorded. -/
theorem Recorded.perform {history : List Occurrence} {w : Workflow}
    (h : Recorded history w.lastEvent) (operation : Workflow.Operation) :
    Recorded (history ++ w.occurrences operation) (w.perform operation).lastEvent := by
  cases operation with
  | load entries => exact h.load entries
  | applyEvents events limit => exact h.applyEvents events limit
  | applyEvent event => exact h.applyEvent event
  | updateJob update =>
      rw [Workflow.perform, w.lastEvent_updateJob update]
      exact h.append_nil
  | setProgress progress => exact h.append_nil
  | select ref =>
      rw [Workflow.perform, w.lastEvent_select ref]
      exact h.append_nil
  | hover ref =>
      rw [Workflow.perform, w.lastEvent_hover ref]
      exact h.append_nil

/-- A whole run is recorded. -/
theorem Recorded.run {history : List Occurrence} {w : Workflow} (h : Recorded history w.lastEvent)
    (operations : List Workflow.Operation) :
    Recorded (history ++ w.history operations) (w.run operations).lastEvent := by
  induction operations generalizing history w with
  | nil => exact h.append_nil
  | cons operation rest ih =>
      rw [Workflow.history, ← List.append_assoc]
      exact ih (h.perform operation)

end JobGraph
