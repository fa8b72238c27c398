import JobGraph.Proofs.Workflow.Failures
import JobGraph.Proofs.Workflow.Placement
import JobGraph.Proofs.Workflow.Reloading

/-!
# The marks of a view

A view points at jobs, and what it points at is kept twice: as a key of the workflow, and as a mark on
the job itself.  The two always agree, `Marked`.

* **Views.**  To move a pointer is to take the mark from the job that the pointer leaves and to give
  one to the job that it enters.  When the marks agree with the pointer before, every job has the mark
  after it just if the pointer is at the job: `MarksAt.job?_move`.
* **Events and updates.**  They replace jobs, but merge no mark.
* **Loads.**  New jobs have no marks, and nothing is pointed at.

As no job is listed twice, the marked ones in the list of jobs are the job pointed at and no other.
-/

namespace JobGraph.Workflow

variable {w w' : Workflow} {mark : Job → Bool} {pointer current : Option NodeKey}

/-! ## Marks and pointers -/

/-- A job has a mark exactly when the pointer is at its node. -/
def MarksAt (w : Workflow) (mark : Job → Bool) (pointer : Option NodeKey) : Prop :=
  ∀ key job, w.job? key = some job → (mark job = true ↔ pointer = some key)

/-- Every job stands once in the order of the jobs. -/
structure Enumerated (w : Workflow) : Prop where
  nodup_jobKeys : w.jobKeys.Nodup
  mem_jobKeys : ∀ key, (w.job? key).isSome → key ∈ w.jobKeys

/-- The marks on the jobs agree with what the workflow points at. -/
structure Marked (w : Workflow) : Prop extends Pointing w, Enumerated w where
  isSelected_iff : w.MarksAt Job.isSelected w.selected
  isHovered_iff : w.MarksAt Job.isHovered w.hovered

/-- Whoever sees of the jobs only what they keep sees the same marks. -/
theorem MarksAt.edited {Part : Type} {touched : NodeKey → Prop} {part : Job → Part}
    (h : w.MarksAt mark pointer) (hedited : Edited touched part w w') (read : Part → Bool)
    (hread : ∀ job, read (part job) = mark job) : w'.MarksAt mark pointer := by
  intro key job hjob
  have hpart := hedited.part_eq key
  rw [hjob, Option.map_some, eq_comm, Option.map_eq_some_iff] at hpart
  obtain ⟨old, hold, hsame⟩ := hpart
  rw [← hread job, ← hsame, hread old]
  exact h key old hold

theorem Enumerated.edited {Part : Type} {touched : NodeKey → Prop} {part : Job → Part}
    (h : Enumerated w) (hedited : Edited touched part w w') : Enumerated w' where
  nodup_jobKeys := by
    rw [hedited.jobKeys_eq]
    exact h.nodup_jobKeys
  mem_jobKeys key hkey := by
    rw [hedited.jobKeys_eq]
    refine h.mem_jobKeys key ?_
    rwa [← Option.isSome_map (f := part), ← hedited.part_eq key, Option.isSome_map]

/-- Of distinct keys one is kept. -/
theorem filterMap_ite_eq {β : Type} {keys : List NodeKey} {kept : NodeKey} (hnodup : keys.Nodup)
    (hkept : kept ∈ keys) (value? : NodeKey → Option β) :
    keys.filterMap (fun key => if kept = key then value? key else none) = (value? kept).toList := by
  induction keys with
  | nil => exact absurd hkept List.not_mem_nil
  | cons first rest ih =>
      rw [List.nodup_cons] at hnodup
      rcases List.mem_cons.1 hkept with rfl | hrest
      · have hnone : rest.filterMap (fun key => if kept = key then value? key else none) = [] := by
          rw [List.filterMap_eq_nil_iff]
          rintro key hkey
          rw [if_neg]
          rintro rfl
          exact hnodup.1 hkey
        rw [List.filterMap_cons, if_pos rfl, hnone]
        cases value? kept <;> rfl
      · have hne : kept ≠ first := by
          rintro rfl
          exact hnodup.1 hrest
        rw [List.filterMap_cons, if_neg hne]
        exact ih hnodup.2 hrest

/-- The marked ones among the jobs are the job that the pointer is at. -/
theorem MarksAt.filter_jobs (h : w.MarksAt mark pointer) (henumerated : Enumerated w)
    (hpointing : ∀ key, pointer = some key → (w.job? key).isSome) :
    w.jobs.filter mark = (pointer.bind w.job?).toList := by
  have hmarked : ∀ key,
      (w.job? key).filter mark = if pointer = some key then w.job? key else none := by
    intro key
    cases hjob : w.job? key with
    | none => simp
    | some job =>
        rw [Option.filter_some]
        simp only [h key job hjob]
  rw [jobs, List.filter_filterMap]
  simp only [hmarked]
  cases pointer with
  | none => simp
  | some current =>
      simp only [Option.some.injEq]
      exact filterMap_ite_eq henumerated.nodup_jobKeys
        (henumerated.mem_jobKeys current (hpointing current rfl)) w.job?

/-! ## Moving a pointer -/

theorem job?_modifyJob? (w : Workflow) (key : Option NodeKey) (other : NodeKey)
    (change : Job → Job) :
    (w.modifyJob? key change).job? other =
      if key = some other then (w.job? other).map change else w.job? other := by
  cases key with
  | none => rfl
  | some key =>
      rw [modifyJob?, job?_modifyJob]
      simp only [Option.some.injEq, eq_comm]

/-- After a pointer was moved, jobs are the same but for the mark, and they have it just if the
pointer is at them. -/
theorem MarksAt.job?_move (h : w.MarksAt mark pointer) (set : Bool → Job → Job)
    (hset : ∀ job, set (mark job) job = job)
    (hsets : ∀ new old job, set new (set old job) = set new job) (key : NodeKey) :
    ((w.modifyJob? pointer (set false)).modifyJob? current (set true)).job? key =
      (w.job? key).map (set (decide (current = some key))) := by
  rw [job?_modifyJob?, job?_modifyJob?]
  cases hjob : w.job? key with
  | none => simp
  | some job =>
      by_cases hcurrent : current = some key
      · rw [if_pos hcurrent, decide_eq_true hcurrent]
        split <;> simp [hsets]
      · rw [if_neg hcurrent, decide_eq_false hcurrent]
        split
        · rfl
        · -- the pointer was elsewhere, so the job has no mark to lose
          rename_i helsewhere
          have hmark : mark job = false := by
            rw [← Bool.not_eq_true, h key job hjob]
            exact helsewhere
          rw [Option.map_some, ← hmark, hset]

/-- Where jobs have the mark just if the pointer is at them, the marks agree with it. -/
theorem marksAt_of_job?_eq (set : Bool → Job → Job) (hmark : ∀ new job, mark (set new job) = new)
    (hjobs : ∀ key, w'.job? key = (w.job? key).map (set (decide (current = some key)))) :
    w'.MarksAt mark current := by
  intro key job hjob
  rw [hjobs, Option.map_eq_some_iff] at hjob
  obtain ⟨old, -, rfl⟩ := hjob
  rw [hmark, decide_eq_true_eq]

theorem Marked.job?_setSelected (h : Marked w) (current : Option NodeKey) (key : NodeKey) :
    (w.setSelected current).job? key =
      (w.job? key).map fun job => { job with isSelected := decide (current = some key) } :=
  h.isSelected_iff.job?_move (fun new job => { job with isSelected := new }) (fun _ => rfl)
    (fun _ _ _ => rfl) key

theorem Marked.job?_setHovered (h : Marked w) (current : Option NodeKey) (key : NodeKey) :
    (w.setHovered current).job? key =
      (w.job? key).map fun job => { job with isHovered := decide (current = some key) } :=
  h.isHovered_iff.job?_move (fun new job => { job with isHovered := new }) (fun _ => rfl)
    (fun _ _ _ => rfl) key

theorem hovered_setSelected (w : Workflow) (current : Option NodeKey) :
    (w.setSelected current).hovered = w.hovered :=
  (((SamePlaces.refl w).modifyJob? w.selected _).modifyJob? current _).hovered_eq

theorem selected_setHovered (w : Workflow) (current : Option NodeKey) :
    (w.setHovered current).selected = w.selected :=
  (((SamePlaces.refl w).modifyJob? w.hovered _).modifyJob? current _).selected_eq

/-- Selecting fails, or moves the selection. -/
theorem select_state_cases (w : Workflow) (ref : Option JobRef) :
    (w.select ref).state = w ∨ ∃ current, (w.select ref).state = w.setSelected current := by
  unfold Workflow.select
  split
  · exact .inl rfl
  · exact .inr ⟨_, rfl⟩

/-- Hovering fails, or changes nothing, or moves the pointer. -/
theorem hover_state_cases (w : Workflow) (ref : Option JobRef) :
    (w.hover ref).state = w ∨ ∃ current, (w.hover ref).state = w.setHovered current := by
  unfold Workflow.hover
  split
  · exact .inl rfl
  · split
    · exact .inl rfl
    · exact .inr ⟨_, rfl⟩

theorem Marked.select (h : Marked w) (hindexed : Indexed w) (ref : Option JobRef) :
    Marked (w.select ref).state := by
  have hpointing := h.toPointing.select hindexed ref
  have hedited := w.edited_select ref
  rcases w.select_state_cases ref with hsame | ⟨current, hmoved⟩
  · rwa [hsame]
  · rw [hmoved] at hpointing hedited ⊢
    refine ⟨hpointing, h.toEnumerated.edited hedited, ?_, ?_⟩
    · exact marksAt_of_job?_eq (fun new job => { job with isSelected := new }) (fun _ _ => rfl)
        (h.job?_setSelected current)
    · rw [hovered_setSelected]
      exact h.isHovered_iff.edited hedited Job.isHovered fun _ => rfl

theorem Marked.hover (h : Marked w) (hindexed : Indexed w) (ref : Option JobRef) :
    Marked (w.hover ref).state := by
  have hpointing := h.toPointing.hover hindexed ref
  have hedited := w.edited_hover ref
  rcases w.hover_state_cases ref with hsame | ⟨current, hmoved⟩
  · rwa [hsame]
  · rw [hmoved] at hpointing hedited ⊢
    refine ⟨hpointing, h.toEnumerated.edited hedited, ?_, ?_⟩
    · rw [selected_setHovered]
      exact h.isSelected_iff.edited hedited Job.isSelected fun _ => rfl
    · exact marksAt_of_job?_eq (fun new job => { job with isHovered := new }) (fun _ _ => rfl)
        (h.job?_setHovered current)

/-! ## Events and updates -/

/-- A batch changes jobs, but neither their ranks nor their marks. -/
theorem edited_applyEvents (w : Workflow) (events : List Event) (limit : Option Nat) :
    Edited (fun _ => True) Job.standing w (w.applyEvents events limit).state := by
  obtain ⟨count, hstate, -⟩ := w.applyEvents_state events limit
  rw [hstate]
  refine List.foldlRecOn _ _ (Edited.refl w) fun next hnext event _ => hnext.trans ?_
  have hevent := next.edited_takeEvent none 0 event
  exact ⟨hevent.withoutData_eq, hevent.jobKeys_eq, fun _ hkey => absurd trivial hkey,
    hevent.part_eq⟩

/-- What leaves the standing of the jobs alone, and what is pointed at, keeps the marks. -/
theorem Marked.of_standing {touched : NodeKey → Prop} (h : Marked w)
    (hedited : Edited touched Job.standing w w') (hsame : SamePlaces w w') : Marked w' := by
  refine ⟨h.toPointing.of_samePlaces hsame, h.toEnumerated.edited hedited, ?_, ?_⟩
  · rw [hsame.selected_eq]
    exact h.isSelected_iff.edited hedited (fun standing => standing.2.1) fun _ => rfl
  · rw [hsame.hovered_eq]
    exact h.isHovered_iff.edited hedited (fun standing => standing.2.2) fun _ => rfl

/-! ## Loads -/

section Loads

variable {entries : List JobEntry} {report : LayeringReport}

theorem mem_realKeys_of_load (h : (w.load entries).answer = .ok report) {key : NodeKey}
    (hkey : ((w.load entries).state.job? key).isSome) :
    key ∈ (w.load entries).state.graph.realKeys := by
  have hlinked : Graph.Linked ((jobGraph (JobEntry.linkedJobs entries)).layOut w.options).1 :=
    ((Graph.consistent_ofRecords _ _ _).layOut w.options).toLinked
  rw [load_eq_ok h] at hkey ⊢
  generalize ((jobGraph (JobEntry.linkedJobs entries)).layOut w.options).1 = g at hlinked hkey ⊢
  -- jobs that got their ranks were there before
  have hlabel : ((w.withGraph g).label? key).isSome := by rwa [label?, Option.isSome_map]
  rw [label?_withGraph, Option.isSome_map] at hlabel
  obtain ⟨job, hjob⟩ := Option.isSome_iff_exists.1 hlabel
  show key ∈ (numberJobs g).realKeys
  rw [(numberJobs_spec g).2.1]
  exact hlinked.mem_realKeys_of_data? hjob

theorem enumerated_load (h : (w.load entries).answer = .ok report) :
    Enumerated (w.load entries).state := by
  have harranged := arranged_load h
  refine ⟨?_, fun key hkey => harranged.perm_jobKeys.mem_iff.2 (mem_realKeys_of_load h hkey)⟩
  rw [harranged.perm_jobKeys.nodup_iff, harranged.realKeys_eq]
  exact List.nodup_range

/-- Jobs come into a workflow without marks. -/
theorem unmarked_load (h : (w.load entries).answer = .ok report) {key : NodeKey} {job : Job}
    (hjob : (w.load entries).state.job? key = some job) :
    job.isSelected = false ∧ job.isHovered = false := by
  have hloaded := loaded_of_load h
  have hmem := mem_realKeys_of_load h (by rw [hjob]; rfl)
  rw [hloaded.realKeys_eq, List.mem_range] at hmem
  obtain ⟨rank, hrank⟩ := hloaded.job?_eq key _ (List.getElem?_eq_getElem hmem)
  rw [hjob, Option.some.injEq] at hrank
  rw [hrank]
  exact ⟨rfl, rfl⟩

theorem Marked.load (h : Marked w) (entries : List JobEntry) : Marked (w.load entries).state := by
  cases hanswer : (w.load entries).answer with
  | error error => rwa [(load_of_error hanswer).1]
  | ok report =>
      have hnone : (w.load entries).state.selected = none ∧
          (w.load entries).state.hovered = none := by
        rw [load_eq_ok hanswer]
        exact ⟨rfl, rfl⟩
      refine ⟨h.toPointing.load entries, enumerated_load hanswer, ?_, ?_⟩
      · rw [hnone.1]
        intro key job hjob
        simp [(unmarked_load hanswer hjob).1]
      · rw [hnone.2]
        intro key job hjob
        simp [(unmarked_load hanswer hjob).2]

end Loads

/-! ## Runs -/

namespace Marked

theorem new (id : Option String) (options : LayoutOptions) : Marked (new id options) := by
  have hnone : ∀ key, (Workflow.new id options).job? key = none := by
    intro key
    simp [job?, Workflow.new, Graph.data?, Graph.node?, Graph.empty]
  have hmarks : ∀ mark pointer, (Workflow.new id options).MarksAt mark pointer := by
    intro mark pointer key job hjob
    rw [hnone] at hjob
    exact absurd hjob.symm (Option.some_ne_none job)
  refine ⟨.new id options, ⟨List.nodup_nil, fun key hkey => ?_⟩, hmarks _ _, hmarks _ _⟩
  rw [hnone] at hkey
  exact absurd hkey Bool.false_ne_true

/-- One operation keeps marks and pointers in agreement. -/
theorem perform (h : Marked w) (hindexed : Indexed w) (operation : Operation) :
    Marked (w.perform operation) := by
  cases operation with
  | load entries => exact h.load entries
  | applyEvents events limit =>
      exact h.of_standing (w.edited_applyEvents events limit) (w.samePlaces_applyEvents events limit)
  | applyEvent event => exact h.of_standing (w.edited_applyEvent event) (w.samePlaces_applyEvent event)
  | updateJob update =>
      exact h.of_standing (w.edited_updateJob update) (w.samePlaces_updateJob update)
  | setProgress progress =>
      have hedited : Edited (fun _ => False) Job.standing w (w.setProgress progress).state :=
        (Edited.refl w).congr rfl rfl
      exact h.of_standing hedited ⟨fun _ => rfl, rfl, rfl⟩
  | select ref => exact h.select hindexed ref
  | hover ref => exact h.hover hindexed ref

theorem run (h : Marked w) (hindexed : Indexed w) (operations : List Operation) :
    Marked (w.run operations) := by
  induction operations generalizing w with
  | nil => exact h
  | cons operation rest ih => exact ih (h.perform hindexed operation) (hindexed.perform operation)

end Marked

/-! ## Selecting twice -/

theorem byName_modifyJob? (w : Workflow) (key : Option NodeKey) (change : Job → Job) :
    (w.modifyJob? key change).byName = w.byName := by
  cases key <;> rfl

theorem byId_modifyJob? (w : Workflow) (key : Option NodeKey) (change : Job → Job) :
    (w.modifyJob? key change).byId = w.byId := by
  cases key <;> rfl

/-- A selection leaves both indices alone, and so what references name. -/
theorem findKey_setSelected (w : Workflow) (current : Option NodeKey) (ref : JobRef) :
    (w.setSelected current).findKey ref = w.findKey ref := by
  simp only [findKey, setSelected, byName_modifyJob?, byId_modifyJob?]

theorem findKey?_of_findKey {ref : JobRef} {key : NodeKey} (h : w.findKey ref = .ok key) :
    w.findKey? (some ref) = .ok (some key) := by
  rw [findKey?, h]
  rfl

/-- Selecting a job that is not selected selects it. -/
theorem select_of_ne {ref : JobRef} {key : NodeKey} (hkey : w.findKey ref = .ok key)
    (hother : w.selected ≠ some key) :
    (w.select (some ref)).state = w.setSelected (some key) ∧
      (w.select (some ref)).answer = .ok ((w.setSelected (some key)).job? key) := by
  rw [select, findKey?_of_findKey hkey]
  dsimp only
  rw [if_neg hother.symm]
  exact ⟨rfl, rfl⟩

/-- Selecting the selected job leaves none. -/
theorem select_of_eq {ref : JobRef} {key : NodeKey} (hkey : w.findKey ref = .ok key)
    (hsame : w.selected = some key) :
    (w.select (some ref)).state = w.setSelected none ∧
      (w.select (some ref)).answer = .ok none := by
  rw [select, findKey?_of_findKey hkey]
  dsimp only
  rw [if_pos hsame.symm]
  exact ⟨rfl, rfl⟩

/-- The first of two selections of a job selects it, and the second leaves no job selected. -/
structure Toggles (w : Workflow) (key : NodeKey) (first second : JobRef) : Prop where
  selected_once : (w.select (some first)).state.selected = some key
  answer_once : ∃ job, w.job? key = some job ∧
    (w.select (some first)).answer = .ok (some { job with isSelected := true })
  selected_twice : ((w.select (some first)).state.select (some second)).state.selected = none
  answer_twice : ((w.select (some first)).state.select (some second)).answer = .ok none
  job?_twice : ∀ other, ((w.select (some first)).state.select (some second)).state.job? other =
    (w.job? other).map Job.unselected

theorem Marked.toggles (h : Marked w) (hindexed : Indexed w) {key : NodeKey} {first second : JobRef}
    (hfirst : w.findKey first = .ok key) (hsecond : w.findKey second = .ok key)
    (hother : w.selected ≠ some key) : Toggles w key first second := by
  obtain ⟨honce, hanswer⟩ := select_of_ne hfirst hother
  have hmarked := h.select hindexed (some first)
  rw [honce] at hmarked
  have hfound : (w.setSelected (some key)).findKey second = .ok key := by
    rw [findKey_setSelected, hsecond]
  obtain ⟨htwice, hlast⟩ := select_of_eq hfound rfl
  refine ⟨by rw [honce]; rfl, ?_, by rw [honce, htwice]; rfl, by rw [honce, hlast], ?_⟩
  · obtain ⟨job, hjob⟩ := Option.isSome_iff_exists.1
      ((hindexed.grounded h.toPointing).isSome_of_findKey hfirst)
    refine ⟨job, hjob, ?_⟩
    rw [hanswer, h.job?_setSelected, hjob]
    simp
  · intro other
    rw [honce, htwice, hmarked.job?_setSelected, h.job?_setSelected, Option.map_map]
    rfl

/-! ## What a view shows -/

/-- The job pointed at is the one that has the mark. -/
structure Shows (w : Workflow) (mark : Job → Bool) (pointer : Option NodeKey) (pointed : Option Job) :
    Prop where
  /-- It is there, wherever the pointer is. -/
  isSome_pointed : pointed.isSome = pointer.isSome
  mark_iff_pointer : ∀ key job, w.job? key = some job → (mark job = true ↔ pointer = some key)
  mark_iff_pointed : ∀ key job, w.job? key = some job → (mark job = true ↔ pointed = some job)
  /-- Among all jobs it is the only one with the mark. -/
  filter_jobs : w.jobs.filter mark = pointed.toList

/-- The marks on the jobs are what a view points at, and a second selection undoes the first. -/
structure ViewAgrees (w : Workflow) : Prop where
  mem_jobs_iff : ∀ job, job ∈ w.jobs ↔ ∃ key, w.job? key = some job
  selected : Shows w Job.isSelected w.selected w.selectedJob?
  hovered : Shows w Job.isHovered w.hovered w.hoveredJob?
  toggles : ∀ key first second, w.findKey first = .ok key → w.findKey second = .ok key →
    w.selected ≠ some key → Toggles w key first second

theorem Enumerated.mem_jobs_iff (h : Enumerated w) (job : Job) :
    job ∈ w.jobs ↔ ∃ key, w.job? key = some job := by
  rw [jobs, List.mem_filterMap]
  refine exists_congr fun key => and_iff_right_of_imp fun hjob => ?_
  exact h.mem_jobKeys key (by rw [hjob]; rfl)

theorem MarksAt.shows (h : w.MarksAt mark pointer) (henumerated : Enumerated w)
    (hpointing : ∀ key, pointer = some key → (w.job? key).isSome) :
    Shows w mark pointer (pointer.bind w.job?) where
  isSome_pointed := by
    cases pointer with
    | none => rfl
    | some key => exact hpointing key rfl
  mark_iff_pointer := h
  mark_iff_pointed key job hjob := by
    constructor
    · intro hmark
      rw [(h key job hjob).1 hmark]
      exact hjob
    · intro hpointed
      obtain ⟨current, hcurrent, hsame⟩ := Option.bind_eq_some_iff.1 hpointed
      exact (h current job hsame).2 hcurrent
  filter_jobs := h.filter_jobs henumerated hpointing

/-- **Marks.**  After any run, the jobs marked as selected and as hovered over are the ones that the
workflow names as such, and selecting a job twice in a row, when it was not selected before, leaves
no job selected. -/
theorem viewAgrees_run (id : Option String) (options : LayoutOptions) (operations : List Operation) :
    ViewAgrees ((new id options).run operations) := by
  have hindexed := (indexed_new id options).run operations
  have hmarked := (Marked.new id options).run (indexed_new id options) operations
  exact ⟨hmarked.mem_jobs_iff, hmarked.isSelected_iff.shows hmarked.toEnumerated hmarked.selected,
    hmarked.isHovered_iff.shows hmarked.toEnumerated hmarked.hovered,
    fun _ _ _ hfirst hsecond hother => hmarked.toggles hindexed hfirst hsecond hother⟩

/-- A job is selected, an update of it carries marks of its own, and a load fails. -/
def revisited : Workflow :=
  (new none ⟨.strict, true, 0⟩).run
    [.load [⟨"a", { Job.blank with id := some "x", isHovered := true }, ["b"]⟩, ⟨"b", .blank, []⟩],
      .select (some ⟨some "b", none⟩), .hover (some ⟨none, some "x"⟩),
      .updateJob { Job.blank with name := "b", status := .running, isHovered := true },
      .load [⟨"c", .blank, ["c"]⟩]]

/-- The other job is then selected by its name, and deselected by its id. -/
theorem viewAgrees_revisited :
    ViewAgrees revisited ∧ Toggles revisited 0 ⟨some "a", none⟩ ⟨none, some "x"⟩ ∧
      revisited.jobs.filter Job.isSelected =
        [{ Job.blank with name := "b", status := .running, index := some 1, parentNames := ["a"],
                          isSelected := true }] := by
  have hagrees : ViewAgrees revisited := viewAgrees_run none ⟨.strict, true, 0⟩ _
  refine ⟨hagrees, hagrees.toggles 0 _ _ ?_ ?_ ?_, ?_⟩
  · decide +kernel
  · decide +kernel
  · decide +kernel
  · decide +kernel

end JobGraph.Workflow
