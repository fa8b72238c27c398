import JobGraph.Proofs.Workflow.Lookup

/-!
# Operations that fail

An event or an update that fails leaves the workflow as it is, and nobody hears of it.  The same is
true of an event that is a duplicate, and of a view that points at a job there is not.

* **Before the merge.**  An event and an update are checked before anything changes.
* **After the merge.**  By then a job and the index of ids have changed.  But all that is left to do
  is to read that job again, and it is there.
* **Keys.**  A workflow keeps keys in its two indices and for what a view points at.  Each is that of
  a job, after any run: `Grounded`.  So an update fails only where nothing has its name or its id.
-/

namespace JobGraph

/-- Nothing changed, and no notice was given. -/
def Reaction.IsSilent {State Answer : Type} (reaction : Reaction State Answer) (before : State) :
    Prop :=
  reaction.state = before ∧ reaction.notices = []

namespace Workflow

variable {w w' w'' : Workflow}

/-! ## Failures -/

/-- What fails is silent, and nothing fails once an update was merged. -/
structure FailsSilently (w : Workflow) : Prop where
  applyEvent_error : ∀ event error,
    (w.applyEvent event).answer = .error error → (w.applyEvent event).IsSilent w
  applyEvent_duplicate : ∀ event,
    (w.applyEvent event).answer = .ok .duplicate → (w.applyEvent event).IsSilent w
  updateJob : ∀ update error,
    (w.updateJob update).answer = .error error → (w.updateJob update).IsSilent w
  select : ∀ ref error, (w.select ref).answer = .error error → (w.select ref).IsSilent w
  hover : ∀ ref error, (w.hover ref).answer = .error error → (w.hover ref).IsSilent w
  /-- The job of an event is read again after the merge, and the event is applied. -/
  applied_of_merged : ∀ payload merged key, jobUpdate payload >>= w.mergeUpdate = .ok (merged, key) →
    (merged.job? key).isSome ∧ ∀ id change,
      (w.applyJobChange id change payload).answer = .ok (.applied (.job change))
  /-- The job of an update is read again after the merge, and it is the answer. -/
  updated_of_merged : ∀ update merged key, w.mergeUpdate update = .ok (merged, key) →
    ∃ job, merged.job? key = some job ∧ (w.updateJob update).answer = .ok job

theorem applyJobChange_silent_or_applied (w : Workflow) (id : Int) (change : JobChange)
    (payload : Json) : (w.applyJobChange id change payload).IsSilent w ∨
      (w.applyJobChange id change payload).answer = .ok (.applied (.job change)) := by
  cases hmerge : jobUpdate payload >>= w.mergeUpdate with
  | error error =>
      rw [applyJobChange, hmerge]
      exact .inl ⟨rfl, rfl⟩
  | ok merged =>
      obtain ⟨job, -, happlied⟩ := applyJobChange_of_ok hmerge id change
      rw [happlied]
      exact .inr rfl

/-- An event has no effect, or it is applied. -/
theorem applyEvent_silent_or_applied (w : Workflow) (event : Event) :
    (w.applyEvent event).IsSilent w ∨
      ∃ kind, (w.applyEvent event).answer = .ok (.applied kind) := by
  unfold applyEvent
  split
  · rename_i id kindName payload _ _ _
    split
    · exact .inl ⟨rfl, rfl⟩
    · split
      · exact .inl ⟨rfl, rfl⟩
      · rename_i change _
        exact (w.applyJobChange_silent_or_applied id change payload).imp_right fun h => ⟨_, h⟩
      · unfold applyProgress
        split
        · exact .inl ⟨rfl, rfl⟩
        · exact .inr ⟨_, rfl⟩
  · exact .inl ⟨rfl, rfl⟩

theorem updateJob_silent_or_ok (w : Workflow) (update : Job) :
    (w.updateJob update).IsSilent w ∨ ∃ job, (w.updateJob update).answer = .ok job := by
  cases hmerge : w.mergeUpdate update with
  | error error =>
      rw [updateJob, hmerge]
      exact .inl ⟨rfl, rfl⟩
  | ok merged =>
      obtain ⟨job, -, hupdated⟩ := updateJob_of_ok hmerge
      rw [hupdated]
      exact .inr ⟨job, rfl⟩

theorem failsSilently (w : Workflow) : FailsSilently w where
  applyEvent_error event error herror := by
    refine (w.applyEvent_silent_or_applied event).resolve_right fun ⟨kind, hkind⟩ => ?_
    exact absurd (herror.symm.trans hkind) nofun
  applyEvent_duplicate event hduplicate := by
    refine (w.applyEvent_silent_or_applied event).resolve_right fun ⟨kind, hkind⟩ => ?_
    exact absurd (hduplicate.symm.trans hkind) nofun
  updateJob update error herror := by
    refine (w.updateJob_silent_or_ok update).resolve_right fun ⟨job, hjob⟩ => ?_
    exact absurd (herror.symm.trans hjob) nofun
  select ref error herror := by
    unfold Workflow.select at herror ⊢
    split
    · exact ⟨rfl, rfl⟩
    · rename_i key hkey
      rw [hkey] at herror
      exact absurd herror nofun
  hover ref error herror := by
    unfold Workflow.hover at herror ⊢
    split
    · exact ⟨rfl, rfl⟩
    · rename_i key hkey
      rw [hkey] at herror
      dsimp only at herror
      split at herror
      · exact absurd herror nofun
      · exact absurd herror nofun
  applied_of_merged payload merged key hmerge := by
    refine ⟨?_, fun id change => ?_⟩
    · obtain ⟨job, hjob, -⟩ := applyJobChange_of_ok hmerge 0 .started
      rw [hjob]
      rfl
    · obtain ⟨job, -, happlied⟩ := applyJobChange_of_ok hmerge id change
      rw [happlied]
  updated_of_merged update merged key hmerge := by
    obtain ⟨job, hjob, hupdated⟩ := updateJob_of_ok hmerge
    exact ⟨job, hjob, by rw [hupdated]⟩

/-! ## Keys -/

/-- What a view points at are jobs. -/
structure Pointing (w : Workflow) : Prop where
  selected : ∀ key, w.selected = some key → (w.job? key).isSome
  hovered : ∀ key, w.hovered = some key → (w.job? key).isSome

/-- Every key that a workflow keeps is that of a job. -/
structure Grounded (w : Workflow) : Prop extends Pointing w where
  byName : ∀ name key, w.byName.get? name = some key → (w.job? key).isSome
  byId : ∀ id key, w.byId.get? id = some key → (w.job? key).isSome

/-- The nodes of jobs are the same, and a view points at the same ones. -/
structure SamePlaces (w w' : Workflow) : Prop where
  isSome_job?_eq : ∀ key, (w'.job? key).isSome = (w.job? key).isSome
  selected_eq : w'.selected = w.selected
  hovered_eq : w'.hovered = w.hovered

theorem SamePlaces.refl (w : Workflow) : SamePlaces w w :=
  ⟨fun _ => rfl, rfl, rfl⟩

theorem SamePlaces.trans (h : SamePlaces w w') (h' : SamePlaces w' w'') : SamePlaces w w'' :=
  ⟨fun key => (h'.isSome_job?_eq key).trans (h.isSome_job?_eq key),
    h'.selected_eq.trans h.selected_eq, h'.hovered_eq.trans h.hovered_eq⟩

theorem samePlaces_modifyJob (w : Workflow) (key : NodeKey) (change : Job → Job) :
    SamePlaces w (w.modifyJob key change) := by
  refine ⟨fun other => ?_, rfl, rfl⟩
  rw [job?_modifyJob]
  split
  · exact Option.isSome_map
  · rfl

theorem SamePlaces.modifyJob? (h : SamePlaces w w') (key : Option NodeKey) (change : Job → Job) :
    SamePlaces w (w'.modifyJob? key change) := by
  cases key with
  | none => exact h
  | some key => exact h.trans (w'.samePlaces_modifyJob key change)

/-! ### Events and updates -/

theorem samePlaces_mergeUpdate {update : Job} {key : NodeKey}
    (hok : w.mergeUpdate update = .ok (w', key)) : SamePlaces w w' := by
  obtain ⟨job, -, -, rfl⟩ := mergeUpdate_eq_ok hok
  have hmodified := w.samePlaces_modifyJob key fun _ => job.merge update
  exact ⟨hmodified.isSome_job?_eq, rfl, rfl⟩

theorem samePlaces_updateJob (w : Workflow) (update : Job) :
    SamePlaces w (w.updateJob update).state := by
  cases hmerge : w.mergeUpdate update with
  | error error =>
      rw [updateJob, hmerge]
      exact .refl w
  | ok merged =>
      obtain ⟨job, -, hupdated⟩ := updateJob_of_ok hmerge
      rw [hupdated]
      exact samePlaces_mergeUpdate hmerge

theorem samePlaces_applyJobChange (w : Workflow) (id : Int) (change : JobChange) (payload : Json) :
    SamePlaces w (w.applyJobChange id change payload).state := by
  cases hmerge : jobUpdate payload >>= w.mergeUpdate with
  | error error =>
      rw [applyJobChange, hmerge]
      exact .refl w
  | ok merged =>
      obtain ⟨job, -, happlied⟩ := applyJobChange_of_ok hmerge id change
      rw [happlied]
      obtain ⟨update, -, hok⟩ := bind_eq_ok.1 hmerge
      have hchanged := (samePlaces_mergeUpdate hok).trans
        (merged.1.samePlaces_modifyJob merged.2 (changeStatus change))
      exact ⟨hchanged.isSome_job?_eq, hchanged.selected_eq, hchanged.hovered_eq⟩

theorem samePlaces_applyEvent (w : Workflow) (event : Event) :
    SamePlaces w (w.applyEvent event).state := by
  unfold applyEvent
  split
  · split
    · exact .refl w
    · split
      · exact .refl w
      · exact w.samePlaces_applyJobChange _ _ _
      · unfold applyProgress
        split
        · exact .refl w
        · exact ⟨fun _ => rfl, rfl, rfl⟩
  · exact .refl w

theorem samePlaces_applyEvents (w : Workflow) (events : List Event) (limit : Option Nat) :
    SamePlaces w (w.applyEvents events limit).state := by
  obtain ⟨count, hstate, -⟩ := w.applyEvents_state events limit
  rw [hstate]
  refine List.foldlRecOn _ _ (SamePlaces.refl w) fun next hnext event _ => hnext.trans ?_
  rcases next.state_takeEvent none 0 event with hsame | happlied
  · rw [absorb, hsame]
    exact .refl next
  · rw [absorb, happlied]
    exact next.samePlaces_applyEvent event

/-! ### Runs -/

theorem Indexed.grounded (h : Indexed w) (hpointing : Pointing w) : Grounded w where
  toPointing := hpointing
  byName name key hkey := by
    obtain ⟨id, hlabel⟩ := h.names name key hkey
    obtain ⟨job, hjob, -⟩ := exists_job_of_label? hlabel
    rw [hjob]
    rfl
  byId id key hkey := by
    have hlabel := h.isSome_label? id key hkey
    rwa [label?, Option.isSome_map] at hlabel

theorem Grounded.isSome_of_findKey (h : Grounded w) {ref : JobRef} {key : NodeKey}
    (hkey : w.findKey ref = .ok key) : (w.job? key).isSome := by
  unfold findKey at hkey
  split at hkey
  · exact h.byName _ key (lookUp_eq_ok.1 hkey)
  · exact h.byId _ key (lookUp_eq_ok.1 hkey)
  · exact absurd hkey nofun

/-- What a view is made to point at was found. -/
theorem Grounded.isSome_of_findKey? (h : Grounded w) {ref : Option JobRef} {key : NodeKey}
    (hkey : w.findKey? ref = .ok (some key)) : (w.job? key).isSome := by
  cases ref with
  | none => exact absurd hkey nofun
  | some ref =>
      rw [findKey?] at hkey
      cases hfound : w.findKey ref with
      | error error =>
          rw [hfound] at hkey
          exact absurd hkey nofun
      | ok found =>
          rw [hfound] at hkey
          rw [← Option.some.inj (Except.ok.inj hkey)]
          exact h.isSome_of_findKey hfound

namespace Pointing

theorem new (id : Option String) (options : LayoutOptions) : Pointing (new id options) :=
  ⟨fun _ hkey => absurd hkey nofun, fun _ hkey => absurd hkey nofun⟩

theorem of_samePlaces (h : Pointing w) (hsame : SamePlaces w w') : Pointing w' where
  selected key hkey := by
    rw [hsame.isSome_job?_eq]
    exact h.selected key (hsame.selected_eq ▸ hkey)
  hovered key hkey := by
    rw [hsame.isSome_job?_eq]
    exact h.hovered key (hsame.hovered_eq ▸ hkey)

theorem load (h : Pointing w) (entries : List JobEntry) : Pointing (w.load entries).state := by
  rcases w.load_cases entries with hsame | ⟨g, -, hloaded⟩
  · rwa [hsame]
  · rw [hloaded]
    exact ⟨fun _ hkey => absurd hkey nofun, fun _ hkey => absurd hkey nofun⟩

theorem setSelected (h : Pointing w) {key : Option NodeKey}
    (hkey : ∀ found, key = some found → (w.job? found).isSome) : Pointing (w.setSelected key) := by
  have hsame := ((SamePlaces.refl w).modifyJob? w.selected fun job =>
    { job with isSelected := false }).modifyJob? key fun job => { job with isSelected := true }
  refine ⟨fun other hother => ?_, fun other hother => ?_⟩
  · exact (hsame.isSome_job?_eq other).trans (hkey other hother)
  · exact (hsame.isSome_job?_eq other).trans (h.hovered other (hsame.hovered_eq.symm.trans hother))

theorem setHovered (h : Pointing w) {key : Option NodeKey}
    (hkey : ∀ found, key = some found → (w.job? found).isSome) : Pointing (w.setHovered key) := by
  have hsame := ((SamePlaces.refl w).modifyJob? w.hovered fun job =>
    { job with isHovered := false }).modifyJob? key fun job => { job with isHovered := true }
  refine ⟨fun other hother => ?_, fun other hother => ?_⟩
  · exact (hsame.isSome_job?_eq other).trans (h.selected other (hsame.selected_eq.symm.trans hother))
  · exact (hsame.isSome_job?_eq other).trans (hkey other hother)

theorem select (h : Pointing w) (hindexed : Indexed w) (ref : Option JobRef) :
    Pointing (w.select ref).state := by
  unfold Workflow.select
  split
  · exact h
  · rename_i key hkey
    refine h.setSelected fun found hfound => ?_
    -- selecting the selected job again leaves none
    split at hfound
    · exact absurd hfound nofun
    · exact (hindexed.grounded h).isSome_of_findKey? (hfound ▸ hkey)

theorem hover (h : Pointing w) (hindexed : Indexed w) (ref : Option JobRef) :
    Pointing (w.hover ref).state := by
  unfold Workflow.hover
  split
  · exact h
  · rename_i key hkey
    split
    · exact h
    · exact h.setHovered fun found hfound => (hindexed.grounded h).isSome_of_findKey? (hfound ▸ hkey)

/-- One operation leaves a view pointing at jobs. -/
theorem perform (h : Pointing w) (hindexed : Indexed w) (operation : Operation) :
    Pointing (w.perform operation) := by
  cases operation with
  | load entries => exact h.load entries
  | applyEvents events limit => exact h.of_samePlaces (w.samePlaces_applyEvents events limit)
  | applyEvent event => exact h.of_samePlaces (w.samePlaces_applyEvent event)
  | updateJob update => exact h.of_samePlaces (w.samePlaces_updateJob update)
  | setProgress progress => exact h.of_samePlaces ⟨fun _ => rfl, rfl, rfl⟩
  | select ref => exact h.select hindexed ref
  | hover ref => exact h.hover hindexed ref

theorem run (h : Pointing w) (hindexed : Indexed w) (operations : List Operation) :
    Pointing (w.run operations) := by
  induction operations generalizing w with
  | nil => exact h
  | cons operation rest ih => exact ih (h.perform hindexed operation) (hindexed.perform operation)

end Pointing

/-- After any run, every key that the workflow keeps is that of a job. -/
theorem grounded_run (id : Option String) (options : LayoutOptions) (operations : List Operation) :
    Grounded ((new id options).run operations) :=
  ((indexed_new id options).run operations).grounded
    ((Pointing.new id options).run (indexed_new id options) operations)

/-- Where every key is that of a job, an update fails only if it names none. -/
theorem Grounded.error_updateJob_iff (h : Grounded w) (update : Job) :
    (∃ error, (w.updateJob update).answer = .error error) ↔
      ∃ error, w.findKey (.of update) = .error error := by
  cases hkey : w.findKey (.of update) with
  | error error =>
      have hmerge : w.mergeUpdate update = .error error := by
        rw [mergeUpdate, hkey]
        rfl
      rw [updateJob, hmerge]
      exact iff_of_true ⟨error, rfl⟩ ⟨error, rfl⟩
  | ok key =>
      obtain ⟨job, hjob⟩ := Option.isSome_iff_exists.1 (h.isSome_of_findKey hkey)
      have hmerge : ∃ merged, w.mergeUpdate update = .ok merged := by
        rw [mergeUpdate, hkey]
        simp only [bind, Except.bind, hjob]
        exact ⟨_, rfl⟩
      obtain ⟨merged, hmerge⟩ := hmerge
      obtain ⟨merged, -, hupdated⟩ := updateJob_of_ok hmerge
      rw [hupdated]
      exact iff_of_false (by simp) (by simp)

/-- **Failures.**  After any run, what fails changes nothing and tells nobody, nothing fails once an
update was merged, and every key that the workflow keeps is that of a job. -/
theorem failsSilently_run (id : Option String) (options : LayoutOptions)
    (operations : List Operation) :
    FailsSilently ((new id options).run operations) ∧ Grounded ((new id options).run operations) :=
  ⟨failsSilently _, grounded_run id options operations⟩

/-- What an event about a job carries. -/
def aboutJob (name : String) : Json :=
  .object [("job", .object [("name", .string name)])]

/-- A workflow with a job that has started and is selected. -/
def started : Workflow :=
  (new none .default).run
    [.load [⟨"a", { Job.blank with id := some "x" }, []⟩],
      .applyEvent (.new 3 (.job .started) (aboutJob "a")), .select (some ⟨none, some "x"⟩)]

/-- A late event, and events, updates and pointers about a job that is not there.  An event about the
job that is there goes on after the merge. -/
theorem failsSilently_started :
    (started.applyEvent (.new 3 (.job .complete) (aboutJob "a"))).IsSilent started ∧
      (started.applyEvent (.new 4 (.job .complete) (aboutJob "b"))).IsSilent started ∧
      (started.updateJob { Job.blank with name := "b" }).IsSilent started ∧
      (started.select (some ⟨none, none⟩)).IsSilent started ∧
      (started.hover (some ⟨none, some "y"⟩)).IsSilent started ∧
      (∃ merged key, jobUpdate (aboutJob "a") >>= started.mergeUpdate = .ok (merged, key) ∧
        (merged.job? key).isSome) ∧
      ∃ key, started.selected = some key ∧ (started.job? key).isSome := by
  obtain ⟨hfails, hgrounded⟩ : FailsSilently started ∧ Grounded started :=
    failsSilently_run none .default _
  have hselected : started.selected = some 0 := by decide +kernel
  refine ⟨hfails.applyEvent_duplicate _ (by decide +kernel),
    hfails.applyEvent_error _ (.jobNotFound "name" "b") (by decide +kernel),
    hfails.updateJob _ (.jobNotFound "name" "b") (by decide +kernel),
    hfails.select _ .missingJobReference (by decide +kernel),
    hfails.hover _ (.jobNotFound "id" "y") (by decide +kernel), ?_,
    0, hselected, hgrounded.selected 0 hselected⟩
  have happlied : (started.applyJobChange 4 .complete (aboutJob "a")).answer =
      .ok (.applied (.job .complete)) := by decide +kernel
  cases hmerge : jobUpdate (aboutJob "a") >>= started.mergeUpdate with
  | error error =>
      rw [applyJobChange, hmerge] at happlied
      simp at happlied
  | ok merged => exact ⟨merged.1, merged.2, rfl, (hfails.applied_of_merged _ _ _ hmerge).1⟩

end Workflow

end JobGraph
