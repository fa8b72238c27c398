import JobGraph.Proofs.Workflow.History
import JobGraph.Proofs.Workflow.Marks

/-!
# What is said of a job

A job list, updates and events set fields of a job, and the job keeps each until it is set again.  So the
fields of a job are what was last said of them, in or since the last job list, `Remembers`.  Whether the
job is over is such a field.  A start or a failure of the job does not take it back.

Progress asks the job, and not only the event that reports it.  So an event about progress that says
nothing about the end of a job leaves the status alone only if nothing set the flag before.  If the flag is
set, the status becomes what the flags say, whatever other events made of it since.

* **Sayings.**  `heard` lists what the operations of a run say, event by event of a batch, and `Saying.last`
  looks up what was said last.  What fails says nothing.
* **Merging.**  One event or update tells one job the fields that it carries, and those that it does not
  carry are left: `Json.Fields.get?_overwrite`.
-/

namespace JobGraph

/-! ## Sayings -/

/-- Something that is said of jobs. -/
inductive Saying where
  /-- A job list was loaded. -/
  | listed (entries : List JobEntry)
  /-- Fields of the job of a node were set. -/
  | told (key : NodeKey) (fields : Json.Fields)

namespace Saying

/-- What is known of a field of the job of a node after one more saying. -/
def hear (key : NodeKey) (name : String) (known : Option Json) : Saying → Option Json
  | .listed entries => entries[key]?.bind fun entry => entry.job.strip.extra.get? name
  | .told other fields => if key = other then (fields.get? name).or known else known

/-- What was said last of a field of the job of a node. -/
def last (sayings : List Saying) (key : NodeKey) (name : String) : Option Json :=
  sayings.foldl (hear key name) none

theorem last_concat (sayings : List Saying) (saying : Saying) (key : NodeKey) (name : String) :
    last (sayings ++ [saying]) key name = hear key name (last sayings key name) saying := by
  rw [last, List.foldl_concat, last]

end Saying

/-- The kind as which an event of a batch was applied, if it was. -/
def EventFate.kind? : EventFate → Option EventKind
  | .applied kind => some kind
  | .duplicate | .deferred | .rejected _ => none

namespace Workflow

variable {w w' : Workflow} {known : List Saying} {event : Event}

/-- What an update says, if it is merged. -/
def updateSayings (w : Workflow) (update : Job) : List Saying :=
  match w.mergeUpdate update with
  | .ok (_, key) => [.told key update.extra]
  | .error _ => []

/-- What an event says that is applied as one of that kind. -/
def eventSayings (w : Workflow) (event : Event) : Option EventKind → List Saying
  | some (.job _) =>
      match event.payload.map jobUpdate with
      | some (.ok update) => w.updateSayings update
      | some (.error _) | none => []
  | some .workflowProgress | none => []

/-- The kind as which an event by itself was applied, if it was. -/
def appliedKind? : Except WorkflowError EventOutcome → Option EventKind
  | .ok (.applied kind) => some kind
  | .ok .duplicate | .error _ => none

/-- What the events of a batch say. -/
def batchSayings (limit : Option Nat) : Workflow → BatchReport → List Event → List Saying
  | _, _, [] => []
  | w, report, event :: rest =>
      let taken := w.takeEvent limit report.jobEvents event
      w.eventSayings event taken.answer.kind? ++
        batchSayings limit taken.state (report.enter event.id taken.answer) rest

/-- What an operation says. -/
def sayings (w : Workflow) : Operation → List Saying
  | .load entries =>
      match (w.load entries).answer with
      | .ok _ => [.listed entries]
      | .error _ => []
  | .applyEvents events limit => batchSayings limit w .empty events
  | .applyEvent event => w.eventSayings event (appliedKind? (w.applyEvent event).answer)
  | .updateJob update => w.updateSayings update
  | .setProgress _ | .select _ | .hover _ => []

/-- What the operations of a run say. -/
def heard (w : Workflow) : List Operation → List Saying
  | [] => []
  | operation :: rest => w.sayings operation ++ (w.perform operation).heard rest

/-! ## Events that are applied -/

/-- An event about a job merges the update that it carries, and changes the status of that job.  Any
other event leaves the jobs alone. -/
theorem applyEvent_jobs (w : Workflow) (event : Event) :
    (∃ change update merged key,
        (w.applyEvent event).answer = .ok (.applied (.job change)) ∧
          event.payload.map jobUpdate = some (.ok update) ∧
          w.mergeUpdate update = .ok (merged, key) ∧
          (w.applyEvent event).state.job? = (merged.modifyJob key (changeStatus change)).job?) ∨
      ((∀ change, (w.applyEvent event).answer ≠ .ok (.applied (.job change))) ∧
        (w.applyEvent event).state.job? = w.job?) := by
  unfold applyEvent
  split
  · rename_i id kindName payload _ _ hpayload
    split
    · exact .inr ⟨by simp, rfl⟩
    · split
      · exact .inr ⟨by simp, rfl⟩
      · rename_i change _
        cases hmerge : jobUpdate payload >>= w.mergeUpdate with
        | error error =>
            rw [applyJobChange, hmerge]
            exact .inr ⟨by simp, rfl⟩
        | ok merged =>
            obtain ⟨job, -, hstate⟩ := applyJobChange_of_ok hmerge id change
            obtain ⟨update, hupdate, hok⟩ := bind_eq_ok.1 hmerge
            rw [hstate]
            refine .inl ⟨change, update, merged.1, merged.2, rfl, ?_, hok, rfl⟩
            rw [hpayload, Option.map_some, hupdate]
      · unfold applyProgress
        split
        · exact .inr ⟨by simp, rfl⟩
        · exact .inr ⟨by simp, rfl⟩
  · exact .inr ⟨by simp, rfl⟩

/-- An event of a batch that is applied does what it does by itself. -/
theorem takeEvent_of_applied {limit : Option Nat} {jobEvents : Nat} {kind : EventKind}
    (happlied : (w.takeEvent limit jobEvents event).answer = .applied kind) :
    (w.applyEvent event).answer = .ok (.applied kind) ∧
      (w.takeEvent limit jobEvents event).state = (w.applyEvent event).state := by
  unfold takeEvent at happlied ⊢
  dsimp only at happlied ⊢
  split at happlied
  · exact absurd happlied nofun
  · rename_i hformed
    rw [if_neg hformed]
    split at happlied
    · exact absurd happlied nofun
    · rename_i hnew
      rw [if_neg hnew]
      split at happlied
      · exact absurd happlied nofun
      · rename_i hbelow
        rw [if_neg hbelow]
        refine ⟨?_, rfl⟩
        split at happlied
        · rename_i other hother
          rw [hother, EventFate.applied.inj happlied]
        · exact absurd happlied nofun
        · exact absurd happlied nofun

/-! ## Jobs remember -/

/-- The fields of the jobs are what was last said of them. -/
def Remembers (w : Workflow) (known : List Saying) : Prop :=
  ∀ key job, w.job? key = some job → ∀ name, job.extra.get? name = Saying.last known key name

namespace Remembers

theorem new (id : Option String) (options : LayoutOptions) : Remembers (new id options) [] := by
  intro key job hjob
  simp [job?, Workflow.new, Graph.data?, Graph.node?, Graph.empty] at hjob

theorem append_nil (h : Remembers w known) : Remembers w (known ++ []) := by
  rwa [List.append_nil]

/-- Jobs that keep their fields remember as much. -/
theorem of_map_extra (h : Remembers w known)
    (hextra : ∀ key, (w'.job? key).map Job.extra = (w.job? key).map Job.extra) :
    Remembers w' known := by
  intro key job hjob name
  have hkept := hextra key
  rw [hjob, Option.map_some, eq_comm, Option.map_eq_some_iff] at hkept
  obtain ⟨old, hold, hsame⟩ := hkept
  rw [← hsame]
  exact h key old hold name

theorem edited {Part : Type} {touched : NodeKey → Prop} {part : Job → Part} (h : Remembers w known)
    (hedited : Edited touched part w w') (read : Part → Json.Fields)
    (hread : ∀ job, read (part job) = job.extra) : Remembers w' known := by
  refine h.of_map_extra fun key => ?_
  have hpart := congrArg (Option.map read) (hedited.part_eq key)
  rw [Option.map_map, Option.map_map] at hpart
  rwa [show read ∘ part = Job.extra from funext hread] at hpart

/-- A merge tells the job what the update carries. -/
theorem mergeUpdate (h : Remembers w known) {update : Job} {key : NodeKey}
    (hok : w.mergeUpdate update = .ok (w', key)) : Remembers w' (known ++ w.updateSayings update) := by
  have hsaid : w.updateSayings update = [.told key update.extra] := by
    rw [updateSayings, hok]
  obtain ⟨job, -, hjob, rfl⟩ := mergeUpdate_eq_ok hok
  intro other found hfound name
  replace hfound : (w.modifyJob key fun _ => job.merge update).job? other = some found := hfound
  rw [hsaid, Saying.last_concat, Saying.hear]
  rw [job?_modifyJob] at hfound
  -- the job of the node hears the update, and the other jobs keep what they have
  by_cases hother : other = key
  · subst hother
    rw [if_pos rfl, hjob, Option.map_some, Option.some.injEq] at hfound
    rw [if_pos rfl, ← hfound, ← h other job hjob name]
    exact Json.Fields.get?_overwrite job.extra update.extra name
  · rw [if_neg hother] at hfound ⊢
    exact h other found hfound name

theorem updateJob (h : Remembers w known) (update : Job) :
    Remembers (w.updateJob update).state (known ++ w.updateSayings update) := by
  cases hmerge : w.mergeUpdate update with
  | error error =>
      rw [Workflow.updateJob, updateSayings, hmerge]
      exact h.append_nil
  | ok merged =>
      obtain ⟨job, -, hupdated⟩ := updateJob_of_ok hmerge
      rw [hupdated]
      exact h.mergeUpdate hmerge

/-- A change of the status says nothing. -/
theorem changeStatus (h : Remembers w known) (key : NodeKey) (change : JobChange) :
    Remembers (w.modifyJob key (changeStatus change)) known := by
  have hextra : ∀ job, (Workflow.changeStatus change job).extra = job.extra := by
    intro job
    unfold Workflow.changeStatus
    split
    · rfl
    · split <;> rfl
    · rfl
    · rfl
  refine h.of_map_extra fun other => ?_
  rw [job?_modifyJob]
  split
  · rw [Option.map_map]
    exact congrArg (fun read => (w.job? other).map read) (funext hextra)
  · rfl

theorem applyEvent (h : Remembers w known) (event : Event) :
    Remembers (w.applyEvent event).state
      (known ++ w.eventSayings event (appliedKind? (w.applyEvent event).answer)) := by
  rcases w.applyEvent_jobs event with
    ⟨change, update, merged, key, happlied, hpayload, hmerge, hjobs⟩ | ⟨hnot, hjobs⟩
  · have hsaid : w.eventSayings event (appliedKind? (w.applyEvent event).answer) =
        w.updateSayings update := by
      rw [happlied, appliedKind?, eventSayings, hpayload]
    rw [hsaid]
    refine ((h.mergeUpdate hmerge).changeStatus key change).of_map_extra fun other => ?_
    rw [hjobs]
  · have hsaid : w.eventSayings event (appliedKind? (w.applyEvent event).answer) = [] := by
      cases hanswer : (w.applyEvent event).answer with
      | error error => rfl
      | ok outcome =>
          cases outcome with
          | duplicate => rfl
          | applied kind =>
              cases kind with
              | job change => exact absurd hanswer (hnot change)
              | workflowProgress => rfl
    rw [hsaid]
    refine h.append_nil.of_map_extra fun other => ?_
    rw [hjobs]

theorem takeEvent (h : Remembers w known) (limit : Option Nat) (jobEvents : Nat) (event : Event) :
    Remembers (w.takeEvent limit jobEvents event).state
      (known ++ w.eventSayings event (w.takeEvent limit jobEvents event).answer.kind?) := by
  rcases w.takeEvent_cases limit jobEvents event with ⟨kind, id, happlied, -⟩ | ⟨hnot, hsame⟩
  · obtain ⟨halone, hstate⟩ := takeEvent_of_applied happlied
    have hevent := h.applyEvent event
    rw [halone] at hevent
    rw [happlied, hstate]
    exact hevent
  · rw [hsame]
    cases hfate : (w.takeEvent limit jobEvents event).answer with
    | applied kind => exact absurd hfate (hnot kind)
    | duplicate | deferred | rejected _ => exact h.append_nil

/-- The events of a batch are heard one by one. -/
theorem takeEvents (h : Remembers w known) (limit : Option Nat) (report : BatchReport)
    (events : List Event) :
    Remembers (takeEvents limit w report events).state
      (known ++ batchSayings limit w report events) := by
  induction events generalizing w known report with
  | nil => exact h.append_nil
  | cons event rest ih =>
      rw [batchSayings, ← List.append_assoc]
      exact ih (h.takeEvent limit report.jobEvents event) _

/-- New jobs have the fields that their list gives them. -/
theorem load (h : Remembers w known) (entries : List JobEntry) :
    Remembers (w.load entries).state (known ++ w.sayings (.load entries)) := by
  cases hanswer : (w.load entries).answer with
  | error error =>
      have hsame : (w.load entries).state = w := by
        unfold Workflow.load at hanswer ⊢
        split at hanswer
        · rfl
        · exact absurd hanswer nofun
      rw [hsame, Workflow.sayings, hanswer]
      exact h.append_nil
  | ok report =>
      -- with the old jobs all is forgotten that was said of them
      have hloaded := loaded_of_load hanswer
      intro key job hjob name
      have hkey := mem_realKeys_of_load hanswer (Option.isSome_of_eq_some hjob)
      rw [hloaded.realKeys_eq, List.mem_range] at hkey
      have hentry : entries[key]? = some entries[key] := List.getElem?_eq_getElem hkey
      obtain ⟨rank, hrank⟩ := hloaded.job?_eq key entries[key] hentry
      rw [hjob, Option.some.injEq] at hrank
      rw [Workflow.sayings, hanswer]
      show _ = Saying.last (known ++ [.listed entries]) key name
      rw [Saying.last_concat, Saying.hear, hentry, Option.bind_some, hrank]
      rfl

/-- One operation. -/
theorem perform (h : Remembers w known) (operation : Operation) :
    Remembers (w.perform operation) (known ++ w.sayings operation) := by
  cases operation with
  | load entries => exact h.load entries
  | applyEvents events limit => exact h.takeEvents limit .empty events
  | applyEvent event => exact h.applyEvent event
  | updateJob update => exact h.updateJob update
  | setProgress progress => exact h.append_nil
  | select ref => exact h.append_nil.edited (w.edited_select ref) Job.extra fun _ => rfl
  | hover ref => exact h.append_nil.edited (w.edited_hover ref) Job.extra fun _ => rfl

/-- A whole run. -/
theorem run (h : Remembers w known) (operations : List Operation) :
    Remembers (w.run operations) (known ++ w.heard operations) := by
  induction operations generalizing w known with
  | nil => exact h.append_nil
  | cons operation rest ih =>
      rw [heard, ← List.append_assoc]
      exact ih (h.perform operation)

end Remembers

/-- After any run, the fields of the jobs are what was last said of them. -/
theorem remembers_run (id : Option String) (options : LayoutOptions) (operations : List Operation) :
    Remembers ((new id options).run operations) ((new id options).heard operations) :=
  (Remembers.new id options).run operations

/-! ## Progress -/

/-- Whether a value is that of a flag that is set. -/
def isYes : Option Json → Bool
  | some (.bool value) => value
  | some (.string word) => word == "true"
  | _ => false

theorem isSet_eq (job : Job) (name : String) : job.isSet name = isYes (job.extra.get? name) := by
  unfold Job.isSet isYes
  rfl

/-- After a run of operations an event is applied, and the workflow `w'` is left.  The event comes by
itself, or in a batch; then the events of the batch that come before it are part of the run. -/
inductive Applied (start : Workflow) (event : Event) (kind : EventKind) :
    List Operation → Workflow → Prop
  | alone (operations : List Operation)
      (happlied : ((start.run operations).applyEvent event).answer = .ok (.applied kind)) :
      Applied start event kind operations ((start.run operations).applyEvent event).state
  | inBatch (operations : List Operation) (before : List Event) (limit : Option Nat)
      (happlied : (fates limit (start.run operations) .empty (before ++ [event])).getLast? =
        some (.applied kind)) :
      Applied start event kind (operations ++ [.applyEvents before limit])
        ((start.run operations).applyEvents (before ++ [event]) limit).state

theorem run_concat (w : Workflow) (operations : List Operation) (operation : Operation) :
    w.run (operations ++ [operation]) = (w.run operations).perform operation := by
  rw [run, List.foldl_concat, run]

/-- What becomes of the last event of a batch is told in the state that the others leave. -/
theorem getLast?_fates_concat (limit : Option Nat) (w : Workflow) (report : BatchReport)
    (before : List Event) (event : Event) :
    (fates limit w report (before ++ [event])).getLast? =
      some ((takeEvents limit w report before).state.takeEvent limit
        (takeEvents limit w report before).answer.jobEvents event).answer := by
  induction before generalizing w report with
  | nil => rfl
  | cons first rest ih =>
      rw [List.cons_append, fates, List.getLast?_cons, ih]
      rfl

/-- By itself or in a batch, an event does the same where it is applied. -/
theorem Applied.eq_applyEvent {start : Workflow} {kind : EventKind} {operations : List Operation}
    (h : Applied start event kind operations w') :
    ((start.run operations).applyEvent event).answer = .ok (.applied kind) ∧
      w' = ((start.run operations).applyEvent event).state := by
  cases h with
  | alone _ happlied => exact ⟨happlied, rfl⟩
  | inBatch earlier before limit happlied =>
      rw [getLast?_fates_concat, Option.some.injEq] at happlied
      obtain ⟨hanswer, hstate⟩ := takeEvent_of_applied happlied
      rw [run_concat, applyEvents, takeEvents_concat]
      exact ⟨hanswer, hstate⟩

/-- The status that progress gives to a job, by what was said of its end. -/
def progressStatus (status : JobStatus) (complete successful : Option Json) : JobStatus :=
  if isYes complete then if isYes successful then .complete else .failed else status

theorem status_changeStatus_progress (job : Job) :
    (changeStatus .progress job).status =
      progressStatus job.status (job.extra.get? "isComplete") (job.extra.get? "isSuccessful") := by
  rw [changeStatus, Job.saysComplete, Job.saysSuccessful, isSet_eq, isSet_eq, progressStatus]
  split
  · rfl
  · rfl

/-- **Progress.**  Let an event about progress be applied anywhere in a run, and let it say neither
whether the job is over nor what its status is.  It leaves the status of the job unless the job was last
said to be over, in or since the last job list.  If it was, the job is complete or failed, as it was last
said to have succeeded or not, with what the event itself says of that.  No other job changes. -/
theorem Applied.status_of_progress {id : Option String} {options : LayoutOptions}
    {operations : List Operation}
    (h : Applied (new id options) event (.job .progress) operations w') :
    ∃ update key job job', event.payload.map jobUpdate = some (.ok update) ∧
      ((new id options).run operations).findKey (.of update) = .ok key ∧
      ((new id options).run operations).job? key = some job ∧ w'.job? key = some job' ∧
      (∀ other, other ≠ key → w'.job? other = ((new id options).run operations).job? other) ∧
      (update.extra.get? "isComplete" = none → update.status = .pending →
        job'.status = progressStatus job.status
          (Saying.last ((new id options).heard operations) key "isComplete")
          ((update.extra.get? "isSuccessful").or
            (Saying.last ((new id options).heard operations) key "isSuccessful"))) := by
  have hremembers := remembers_run id options operations
  obtain ⟨hanswer, rfl⟩ := h.eq_applyEvent
  generalize (new id options).run operations = w at hremembers hanswer ⊢
  rcases w.applyEvent_jobs event with
    ⟨change, update, merged, key, happlied, hpayload, hmerge, hjobs⟩ | ⟨hnot, -⟩
  · obtain rfl : change = .progress := by
      rw [happlied] at hanswer
      simpa using hanswer
    obtain ⟨job, hkey, hjob, rfl⟩ := mergeUpdate_eq_ok hmerge
    have hread : ∀ other, (w.applyEvent event).state.job? other =
        if other = key then some (changeStatus .progress (job.merge update)) else w.job? other := by
      intro other
      rw [hjobs, job?_modifyJob]
      show (if other = key then ((w.modifyJob key fun _ => job.merge update).job? other).map _ else
        (w.modifyJob key fun _ => job.merge update).job? other) = _
      rw [job?_modifyJob]
      split
      · rename_i heq
        rw [heq, hjob]
        rfl
      · rfl
    refine ⟨update, key, job, _, hpayload, hkey, hjob, (hread key).trans (if_pos rfl),
      fun other hother => (hread other).trans (if_neg hother), fun hcomplete hstatus => ?_⟩
    -- progress asks the merged job: what the event does not say is what was said before
    have hextra : ∀ name, (job.merge update).extra.get? name =
        (update.extra.get? name).or (Saying.last ((new id options).heard operations) key name) := by
      intro name
      rw [← hremembers key job hjob name]
      exact Json.Fields.get?_overwrite job.extra update.extra name
    have hkept : (job.merge update).status = job.status := if_pos hstatus
    rw [status_changeStatus_progress, hextra, hextra, hcomplete, Option.none_or, hkept]
  · exact absurd hanswer (hnot .progress)

/-- A job that was said to be over starts again and fails. -/
def restarted : List Operation :=
  [.load [⟨"a", .blank, []⟩],
    .applyEvents
      [.new 1 (.job .progress) (.object [("name", .string "a"),
        ("job", .object [("isComplete", .string "true"), ("isSuccessful", .string "true")])]),
      .new 2 (.job .started) (.object [("name", .string "a"), ("job", .object [])]),
      .new 3 (.job .failed) (.object [("name", .string "a"), ("job", .object [])])] none]

/-- An event about progress that says nothing. -/
def silentProgress : Event :=
  .new 4 (.job .progress) (.object [("name", .string "a"), ("job", .object [])])

theorem applied_silentProgress :
    Applied (new none .default) silentProgress (.job .progress) restarted
      (((new none .default).run restarted).applyEvent silentProgress).state := by
  refine .alone restarted ?_
  decide +kernel

/-- The job stays failed no longer, though nothing says once more that it is over. -/
theorem status_restarted_ne :
    ∃ w' update, Applied (new none .default) silentProgress (.job .progress) restarted w' ∧
      silentProgress.payload.map jobUpdate = some (.ok update) ∧
      update.extra.get? "isComplete" = none ∧ update.status = .pending ∧
      (((new none .default).run restarted).job? 0).map Job.status = some .failed ∧
      (w'.job? 0).map Job.status = some .complete := by
  refine ⟨_, _, applied_silentProgress, rfl, ?_, ?_, ?_, ?_⟩ <;> decide +kernel

/-- The event makes of the job what was said of it before the restart. -/
theorem status_of_progress_restarted :
    Applied (new none .default) silentProgress (.job .progress) restarted
        (((new none .default).run restarted).applyEvent silentProgress).state ∧
      ∃ job job', ((new none .default).run restarted).job? 0 = some job ∧
        (((new none .default).run restarted).applyEvent silentProgress).state.job? 0 = some job' ∧
        job'.status = progressStatus job.status (some (.string "true")) (some (.string "true")) := by
  obtain ⟨update, key, job, job', hpayload, hkey, hjob, hjob', -, hstatus⟩ :=
    applied_silentProgress.status_of_progress
  obtain rfl := Except.ok.inj (Option.some.inj hpayload)
  have hsaid : ∀ name ∈ ["isComplete", "isSuccessful"],
      Saying.last ((new none .default).heard restarted) 0 name = some (.string "true") := by
    decide +kernel
  have hzero : key = 0 := by
    refine Except.ok.inj (hkey.symm.trans ?_)
    decide +kernel
  subst hzero
  refine ⟨applied_silentProgress, job, job', hjob, hjob', ?_⟩
  rw [hstatus (by decide +kernel) (by decide +kernel), hsaid _ (by simp), hsaid _ (by simp)]
  rfl

end Workflow

end JobGraph
