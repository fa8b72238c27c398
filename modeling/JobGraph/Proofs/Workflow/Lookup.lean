import JobGraph.Proofs.Graph.Operations
import JobGraph.Proofs.Workflow.Updates
import JobGraph.Workflow.Loading

/-!
# Looking jobs up

What the two indices of a workflow are good for after any number of loads, batches and updates.

* **Names.**  No operation renames a job, so a job that is found by a name has that name.
* **Ids.**  An id that a job has was entered into the index when the job was loaded or got the id,
  and the index forgets nothing.  So every job that has the id makes the search for it succeed.
* **Old ids.**  For the same reason an id that a job had before an update replaced it still leads to
  that job.  Unless this happens, a job that is found by an id has that id.
-/

namespace JobGraph

/-! ## Indices of lists -/

/-- An index of nodes by a label that some of them have; of several with one label the first. -/
def IdIndex.ofLabels (label? : NodeKey → Option String) (keys : List NodeKey) (start : IdIndex) :
    IdIndex :=
  keys.foldl (fun index key =>
    match label? key with
    | some label => index.insertNew label key
    | none => index) start

namespace IdIndex

variable {label? : NodeKey → Option String} {keys : List NodeKey} {start : IdIndex}

theorem isSome_get?_insertNew {label : String} (h : (start.get? label).isSome) (other : String)
    (key : NodeKey) : ((start.insertNew other key).get? label).isSome := by
  rw [get?_insertNew]
  split
  · rfl
  · exact h

/-- What an index leads to has the label. -/
theorem label_of_get?_ofLabels {label : String} {key : NodeKey}
    (h : (ofLabels label? keys start).get? label = some key) :
    start.get? label = some key ∨ label? key = some label := by
  induction keys generalizing start with
  | nil => exact .inl h
  | cons first rest ih =>
      rw [ofLabels, List.foldl_cons] at h
      rcases ih h with hfirst | hlabel
      · cases hlabel : label? first with
        | none =>
            rw [hlabel] at hfirst
            exact .inl hfirst
        | some other =>
            rw [hlabel] at hfirst
            dsimp only at hfirst
            rw [get?_insertNew] at hfirst
            split at hfirst
            · rename_i heq
              cases hstart : start.get? other with
              | none =>
                  rw [hstart, Option.getD_none, Option.some.injEq] at hfirst
                  rw [← hfirst, heq]
                  exact .inr hlabel
              | some old =>
                  rw [hstart, Option.getD_some] at hfirst
                  rw [heq, hstart]
                  exact .inl hfirst
            · exact .inl hfirst
      · exact .inr hlabel

theorem isSome_get?_ofLabels_of_start {label : String} (h : (start.get? label).isSome) :
    ((ofLabels label? keys start).get? label).isSome := by
  induction keys generalizing start with
  | nil => exact h
  | cons first rest ih =>
      rw [ofLabels, List.foldl_cons]
      refine ih ?_
      cases label? first with
      | none => exact h
      | some other => exact isSome_get?_insertNew h other first

/-- A label that some node has leads somewhere. -/
theorem isSome_get?_ofLabels {label : String} {key : NodeKey} (hkey : key ∈ keys)
    (hlabel : label? key = some label) : ((ofLabels label? keys start).get? label).isSome := by
  induction keys generalizing start with
  | nil => exact absurd hkey List.not_mem_nil
  | cons first rest ih =>
      rw [ofLabels, List.foldl_cons]
      rcases List.mem_cons.1 hkey with rfl | hrest
      · rw [hlabel]
        refine isSome_get?_ofLabels_of_start ?_
        rw [get?_insertNew, if_pos rfl]
        rfl
      · exact ih hrest

end IdIndex

namespace Workflow

variable {w w' : Workflow}

/-! ## The invariant of the indices -/

/-- Names lead to jobs of that name, ids to jobs, and every id of a job leads somewhere. -/
structure Indexed (w : Workflow) : Prop where
  names : NamesTrue w
  isSome_label? : ∀ id key, w.byId.get? id = some key → (w.label? key).isSome
  isSome_get? : ∀ key name id, w.label? key = some (name, some id) → (w.byId.get? id).isSome

/-- The index of ids leads to jobs of that id. -/
def IdsTrue (w : Workflow) : Prop :=
  ∀ id key, w.byId.get? id = some key → ∃ name, w.label? key = some (name, some id)

/-- Jobs that have an id have it still. -/
def IdsKept (w w' : Workflow) : Prop :=
  ∀ key job job', w.job? key = some job → w'.job? key = some job' → ∀ id ∈ job.id, id ∈ job'.id

theorem indexed_new (id : Option String) (options : LayoutOptions) : Indexed (new id options) := by
  refine ⟨fun name key hkey => absurd hkey nofun, fun other key hkey => absurd hkey nofun,
    fun key name other hkey => ?_⟩
  simp [label?, job?, new, Graph.data?, Graph.node?, Graph.empty] at hkey

theorem Indexed.relabelled (h : Indexed w) (hstep : Relabelled w w') : Indexed w' := by
  cases hstep with
  | same hlabel hname hid =>
      refine ⟨?_, ?_, ?_⟩
      · intro name key
        rw [hname, hlabel]
        exact h.names name key
      · rw [hid, hlabel]
        exact h.isSome_label?
      · rw [hid, hlabel]
        exact h.isSome_get?
  | @entered changed name id old hold hlabel hname hid =>
      refine ⟨fun other key hkey => ?_, fun other key hkey => ?_, fun key other otherId hkey => ?_⟩
      · rw [hname] at hkey
        rw [hlabel]
        obtain ⟨otherId, hother⟩ := h.names other key hkey
        by_cases heq : key = changed
        · -- the job keeps its name
          rw [heq, hold, Option.some.injEq, Prod.mk.injEq] at hother
          rw [heq, Function.update_self, hother.1]
          exact ⟨_, rfl⟩
        · rw [Function.update_of_ne heq]
          exact ⟨otherId, hother⟩
      · rw [hlabel]
        by_cases heq : key = changed
        · rw [heq, Function.update_self]
          rfl
        · rw [hid, IdIndex.get?_insert] at hkey
          rw [Function.update_of_ne heq]
          split at hkey
          · exact absurd (Option.some.inj hkey).symm heq
          · exact h.isSome_label? other key hkey
      · rw [hid, IdIndex.get?_insert]
        split
        · rfl
        · rename_i hne
          rw [hlabel] at hkey
          by_cases heq : key = changed
          · rw [heq, Function.update_self, Option.some.injEq, Prod.mk.injEq,
              Option.some.injEq] at hkey
            exact absurd hkey.2.symm hne
          · rw [Function.update_of_ne heq] at hkey
            exact h.isSome_get? key other otherId hkey

theorem exists_job_of_label? {key : NodeKey} {name : String} {id : Option String}
    (h : w.label? key = some (name, id)) :
    ∃ job, w.job? key = some job ∧ job.name = name ∧ job.id = id := by
  obtain ⟨job, hjob, heq⟩ := Option.map_eq_some_iff.1 h
  exact ⟨job, hjob, (Prod.mk.inj heq).1, (Prod.mk.inj heq).2⟩

/-- When jobs keep their ids, the index stays true. -/
theorem IdsTrue.relabelled (h : IdsTrue w) (hstep : Relabelled w w') (hkept : IdsKept w w') :
    IdsTrue w' := by
  cases hstep with
  | same hlabel _ hid =>
      unfold IdsTrue
      rw [hid, hlabel]
      exact h
  | @entered changed name id old hold hlabel _ hid =>
      intro other key hkey
      rw [hid, IdIndex.get?_insert] at hkey
      split at hkey
      · rename_i heq
        rw [← Option.some.inj hkey, hlabel, Function.update_self, heq]
        exact ⟨name, rfl⟩
      · obtain ⟨otherName, hother⟩ := h other key hkey
        by_cases heq : key = changed
        · -- the job that an old entry leads to has that id still, and it has the new one
          obtain ⟨job, hjob, -, hjobId⟩ := exists_job_of_label? hother
          have hnew : w'.label? key = some (name, some id) := by
            rw [hlabel, heq, Function.update_self]
          obtain ⟨job', hjob', -, hjobId'⟩ := exists_job_of_label? hnew
          have hsame := hkept key job job' hjob hjob' other hjobId
          rw [hjobId', Option.mem_some_iff] at hsame
          rw [hnew, hsame]
          exact ⟨name, rfl⟩
        · rw [hlabel, Function.update_of_ne heq]
          exact ⟨otherName, hother⟩

/-! ## Loading -/

theorem nameIndex_eq (g : Graph Job) :
    nameIndex g = .ofLabels (fun key => (g.data? key).map Job.name) g.realKeys .empty := by
  unfold nameIndex IdIndex.ofLabels
  congr
  funext index key
  dsimp only
  cases g.data? key <;> rfl

/-- Jobs keep names and ids when they get their ranks. -/
theorem data?_numberJobs (g : Graph Job) (key : NodeKey) :
    ((numberJobs g).data? key).map (fun job => (job.name, job.id)) =
      (g.data? key).map fun job => (job.name, job.id) := by
  unfold numberJobs
  refine List.foldlRecOn
    (motive := fun next : Graph Job => (next.data? key).map (fun job => (job.name, job.id)) =
      (g.data? key).map fun job => (job.name, job.id)) _ _ rfl fun next hnext numbered _ => ?_
  rw [← hnext, Graph.data?_modifyData]
  split
  · rw [Option.map_map]
    rfl
  · rfl

theorem label?_withGraph (w : Workflow) (g : Graph Job) (key : NodeKey) :
    (w.withGraph g).label? key = (g.data? key).map fun job => (job.name, job.id) :=
  data?_numberJobs g key

/-- Jobs that were loaded just now are found by their names and their ids. -/
theorem indexed_withGraph (w : Workflow) {g : Graph Job} (h : Graph.Linked g) :
    Indexed (w.withGraph g) ∧ IdsTrue (w.withGraph g) := by
  have hids : IdsTrue (w.withGraph g) := by
    intro id key hkey
    rcases IdIndex.label_of_get?_ofLabels hkey with hnone | hlabel
    · exact absurd hnone nofun
    · obtain ⟨job, hjob, hid⟩ := Option.bind_eq_some_iff.1 hlabel
      rw [label?_withGraph, hjob, Option.map_some, hid]
      exact ⟨_, rfl⟩
  refine ⟨⟨fun name key hkey => ?_, fun id key hkey => ?_, fun key name id hkey => ?_⟩, hids⟩
  · have hindex : (nameIndex g).get? name = some key := hkey
    rw [nameIndex_eq] at hindex
    rcases IdIndex.label_of_get?_ofLabels hindex with hnone | hlabel
    · exact absurd hnone nofun
    · obtain ⟨job, hjob, hname⟩ := Option.map_eq_some_iff.1 hlabel
      rw [label?_withGraph, hjob, Option.map_some, hname]
      exact ⟨_, rfl⟩
  · obtain ⟨name, hlabel⟩ := hids id key hkey
    rw [hlabel]
    rfl
  · rw [label?_withGraph] at hkey
    obtain ⟨job, hjob, heq⟩ := Option.map_eq_some_iff.1 hkey
    refine IdIndex.isSome_get?_ofLabels (h.mem_realKeys_of_data? hjob) ?_
    rw [hjob]
    exact (Prod.mk.inj heq).2

theorem load_cases (w : Workflow) (entries : List JobEntry) :
    (w.load entries).state = w ∨
      ∃ g : Graph Job, Graph.Linked g ∧ (w.load entries).state = w.withGraph g := by
  have hlaid : Graph.Consistent ((jobGraph (JobEntry.linkedJobs entries)).layOut w.options).1 :=
    (Graph.consistent_ofRecords _ _ _).layOut w.options
  unfold load
  split
  · exact .inl rfl
  · rename_i g report heq
    rw [heq] at hlaid
    exact .inr ⟨g, hlaid.toLinked, rfl⟩

/-! ## Operations -/

/-- A change of a workflow. -/
inductive Operation where
  | load (entries : List JobEntry)
  | applyEvents (events : List Event) (limit : Option Nat)
  | applyEvent (event : Event)
  | updateJob (update : Job)
  | setProgress (progress : Nat)
  | select (ref : Option JobRef)
  | hover (ref : Option JobRef)

/-- The workflow after an operation, whether it fails or not. -/
def perform (w : Workflow) : Operation → Workflow
  | .load entries => (w.load entries).state
  | .applyEvents events limit => (w.applyEvents events limit).state
  | .applyEvent event => (w.applyEvent event).state
  | .updateJob update => (w.updateJob update).state
  | .setProgress progress => (w.setProgress progress).state
  | .select ref => (w.select ref).state
  | .hover ref => (w.hover ref).state

/-- The workflow after a list of operations. -/
def run (w : Workflow) (operations : List Operation) : Workflow :=
  operations.foldl perform w

/-- An operation replaces no id that a job has.  Of a batch this is asked event by event; a load
brings new jobs. -/
def KeepsIds (w : Workflow) : Operation → Prop
  | .load _ => True
  | .applyEvents events limit => ∀ count,
      IdsKept (w.applyEvents (events.take count) limit).state
        (w.applyEvents (events.take (count + 1)) limit).state
  | operation => IdsKept w (w.perform operation)

theorem IdsKept.refl (w : Workflow) : IdsKept w w := by
  intro key job job' hjob hjob' id hid
  rw [hjob, Option.some.injEq] at hjob'
  rw [← hjob']
  exact hid

/-- An update without an id replaces none. -/
theorem idsKept_updateJob {update : Job} (h : update.id = none) :
    IdsKept w (w.updateJob update).state := by
  unfold updateJob
  split
  · exact .refl w
  · rename_i updated found hok
    obtain ⟨old, -, hold, rfl⟩ := mergeUpdate_eq_ok hok
    intro key job job' hjob hjob' id hid
    have hread : (w.modifyJob found fun _ => old.merge update).job? key = some job' := by
      split at hjob'
      · exact hjob'
      · exact hjob'
    rw [job?_modifyJob, hjob, Option.map_some] at hread
    split at hread
    · rename_i hfound
      rw [hfound, hold, Option.some.injEq] at hjob
      rw [← Option.some.inj hread, Job.merge, h, Option.none_or, hjob]
      exact hid
    · rw [← Option.some.inj hread]
      exact hid

/-- A batch takes its last event in the state that the others leave. -/
theorem takeEvents_concat (limit : Option Nat) (report : BatchReport) (events : List Event)
    (last : Event) :
    (takeEvents limit w report (events ++ [last])).state =
      ((takeEvents limit w report events).state.takeEvent limit
        (takeEvents limit w report events).answer.jobEvents last).state := by
  induction events generalizing w report with
  | nil => rfl
  | cons event rest ih => exact ih _

theorem relabelled_applyEvents_take (events : List Event) (limit : Option Nat) (count : Nat)
    (hnames : NamesTrue (w.applyEvents (events.take count) limit).state) :
    Relabelled (w.applyEvents (events.take count) limit).state
      (w.applyEvents (events.take (count + 1)) limit).state := by
  rw [List.take_add_one]
  cases events[count]? with
  | none =>
      rw [Option.toList_none, List.append_nil]
      exact .refl _
  | some event =>
      rw [Option.toList_some, applyEvents, applyEvents, takeEvents_concat]
      exact relabelled_takeEvent hnames limit _ event

theorem Indexed.applyEvents_take (h : Indexed w) (events : List Event) (limit : Option Nat)
    (count : Nat) : Indexed (w.applyEvents (events.take count) limit).state := by
  induction count with
  | zero => exact h
  | succ count ih => exact ih.relabelled (relabelled_applyEvents_take events limit count ih.names)

theorem IdsTrue.applyEvents_take (h : IdsTrue w) (hindexed : Indexed w) {events : List Event}
    {limit : Option Nat} (hkeeps : KeepsIds w (.applyEvents events limit)) (count : Nat) :
    IdsTrue (w.applyEvents (events.take count) limit).state := by
  induction count with
  | zero => exact h
  | succ count ih =>
      have hnames := (hindexed.applyEvents_take events limit count).names
      exact ih.relabelled (relabelled_applyEvents_take events limit count hnames) (hkeeps count)

/-- One operation keeps the indices in order. -/
theorem Indexed.perform (h : Indexed w) (operation : Operation) : Indexed (w.perform operation) := by
  cases operation with
  | load entries =>
      rcases w.load_cases entries with hsame | ⟨g, hlinked, hloaded⟩
      · rwa [Workflow.perform, hsame]
      · rw [Workflow.perform, hloaded]
        exact (w.indexed_withGraph hlinked).1
  | applyEvents events limit =>
      have := h.applyEvents_take events limit events.length
      rwa [List.take_length] at this
  | applyEvent event => exact h.relabelled (relabelled_applyEvent h.names event)
  | updateJob update => exact h.relabelled (relabelled_updateJob h.names update)
  | setProgress progress => exact h.relabelled (.same rfl rfl rfl)
  | select ref => exact h.relabelled (relabelled_select w ref)
  | hover ref => exact h.relabelled (relabelled_hover w ref)

/-- One operation that replaces no id keeps the index of ids true. -/
theorem IdsTrue.perform (h : IdsTrue w) (hindexed : Indexed w) {operation : Operation}
    (hkeeps : KeepsIds w operation) : IdsTrue (w.perform operation) := by
  cases operation with
  | load entries =>
      rcases w.load_cases entries with hsame | ⟨g, hlinked, hloaded⟩
      · rwa [Workflow.perform, hsame]
      · rw [Workflow.perform, hloaded]
        exact (w.indexed_withGraph hlinked).2
  | applyEvents events limit =>
      have := h.applyEvents_take hindexed hkeeps events.length
      rwa [List.take_length] at this
  | applyEvent event => exact h.relabelled (relabelled_applyEvent hindexed.names event) hkeeps
  | updateJob update => exact h.relabelled (relabelled_updateJob hindexed.names update) hkeeps
  | setProgress progress => exact h.relabelled (.same rfl rfl rfl) hkeeps
  | select ref => exact h.relabelled (relabelled_select w ref) hkeeps
  | hover ref => exact h.relabelled (relabelled_hover w ref) hkeeps

theorem Indexed.run (h : Indexed w) (operations : List Operation) : Indexed (w.run operations) := by
  induction operations generalizing w with
  | nil => exact h
  | cons operation rest ih => exact ih (h.perform operation)

theorem IdsTrue.run (h : IdsTrue w) (hindexed : Indexed w) {operations : List Operation}
    (hkeep : ∀ earlier operation later, operations = earlier ++ operation :: later →
      KeepsIds (w.run earlier) operation) : IdsTrue (w.run operations) := by
  induction operations generalizing w with
  | nil => exact h
  | cons operation rest ih =>
      refine ih (h.perform hindexed (hkeep [] operation rest rfl)) (hindexed.perform operation) ?_
      rintro earlier other later rfl
      exact hkeep (operation :: earlier) other later rfl

/-! ## Searches -/

theorem find_eq_ok {ref : JobRef} {job : Job} (h : w.find ref = .ok job) :
    ∃ key, w.findKey ref = .ok key ∧ w.job? key = some job := by
  obtain ⟨key, hkey, h⟩ := bind_eq_ok.1 h
  cases hjob : w.job? key with
  | none => simp [hjob] at h
  | some found =>
      simp only [hjob, Except.ok.injEq] at h
      exact ⟨key, hkey, h ▸ hjob⟩

/-- **Looking up.**  After any run, a job that is found by name has that name, and every job is found
by its id, or another one with that id is.  When the run replaces no id, what is found by an id has
that id. -/
theorem find_run (id : Option String) (options : LayoutOptions) (operations : List Operation) :
    (∀ name other job, ((new id options).run operations).find ⟨some name, other⟩ = .ok job →
        job.name = name) ∧
      (∀ runId, (∃ job ∈ ((new id options).run operations).jobs, job.id = some runId) →
        ∃ job, ((new id options).run operations).find ⟨none, some runId⟩ = .ok job) ∧
      ((∀ earlier operation later, operations = earlier ++ operation :: later →
          KeepsIds ((new id options).run earlier) operation) →
        ∀ runId job, ((new id options).run operations).find ⟨none, some runId⟩ = .ok job →
          job.id = some runId) := by
  have hstart : Indexed (new id options) ∧ IdsTrue (new id options) :=
    ⟨indexed_new id options, fun other key hkey => absurd hkey nofun⟩
  have hindexed := hstart.1.run operations
  refine ⟨fun name other job hfind => ?_, ?_, fun hkeep runId job hfind => ?_⟩
  · obtain ⟨key, hkey, hjob⟩ := find_eq_ok hfind
    obtain ⟨found, hlabel⟩ := hindexed.names name key (lookUp_eq_ok.1 hkey)
    obtain ⟨named, hnamed, hname, -⟩ := exists_job_of_label? hlabel
    rw [hjob, Option.some.injEq] at hnamed
    rw [hnamed, hname]
  · rintro runId ⟨job, hmem, hid⟩
    obtain ⟨key, -, hjob⟩ := List.mem_filterMap.1 hmem
    have hlabel : ((new id options).run operations).label? key = some (job.name, some runId) := by
      rw [label?, hjob, Option.map_some, hid]
    obtain ⟨found, hfound⟩ := Option.isSome_iff_exists.1 (hindexed.isSome_get? key _ _ hlabel)
    obtain ⟨label, hlabel'⟩ := Option.isSome_iff_exists.1 (hindexed.isSome_label? _ _ hfound)
    obtain ⟨other, hother, -⟩ := exists_job_of_label? hlabel'
    refine ⟨other, ?_⟩
    have hkey : ((new id options).run operations).findKey ⟨none, some runId⟩ = .ok found :=
      lookUp_eq_ok.2 hfound
    rw [find, hkey]
    simp only [bind, Except.bind, hother]
  · obtain ⟨key, hkey, hjob⟩ := find_eq_ok hfind
    obtain ⟨name, hlabel⟩ := hstart.2.run hstart.1 hkeep runId key (lookUp_eq_ok.1 hkey)
    obtain ⟨found, hfound, -, hid⟩ := exists_job_of_label? hlabel
    rw [hjob, Option.some.injEq] at hfound
    rw [hfound, hid]

/-- A job with an id is loaded and reported to be done. -/
def finished : List Operation :=
  [.load [⟨"a", { Job.blank with id := some "x" }, []⟩],
    .updateJob { Job.blank with name := "a", status := .complete }]

theorem find_finished :
    ∃ job, ((new none .default).run finished).find ⟨none, some "x"⟩ = .ok job ∧
      job.id = some "x" := by
  have hkeep : ∀ earlier operation later, finished = earlier ++ operation :: later →
      KeepsIds ((new none .default).run earlier) operation := by
    intro earlier operation later heq
    match earlier with
    | [] =>
        rw [finished, List.nil_append, List.cons.injEq] at heq
        rw [← heq.1]
        exact trivial
    | [_] =>
        rw [finished, List.singleton_append, List.cons.injEq, List.cons.injEq] at heq
        rw [← heq.2.1]
        exact idsKept_updateJob rfl
    | _ :: _ :: _ => simp [finished] at heq
  obtain ⟨job, hjob⟩ : ∃ job, ((new none .default).run finished).find ⟨none, some "x"⟩ = .ok job := by
    refine ⟨{ Job.blank with name := "a", id := some "x", status := .complete, index := some 0 }, ?_⟩
    decide +kernel
  exact ⟨job, hjob, (find_run none .default finished).2.2 hkeep "x" job hjob⟩

/-- A job that got another id. -/
def renumbered : Workflow :=
  (new none .default).run
    [.load [⟨"a", { Job.blank with id := some "x" }, []⟩],
      .updateJob { Job.blank with name := "a", id := some "y" }]

/-- The old id of a job still leads to it. -/
theorem find_renumbered :
    ∃ job, renumbered.find ⟨none, some "x"⟩ = .ok job ∧ job.id = some "y" ∧ job.id ≠ some "x" := by
  refine ⟨{ Job.blank with name := "a", id := some "y", index := some 0 }, ?_, rfl, by decide⟩
  decide +kernel

end Workflow

end JobGraph
