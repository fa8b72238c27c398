import JobGraph.Proofs.Workflow.Batches
import JobGraph.Workflow.Selection

/-!
# What an update does to names and ids

A workflow finds its jobs by name and by id, so of a job only its label matters here: the name and
the id.  An operation on single jobs either leaves all labels and both indices alone or gives one job
an id and enters that id into the index, and nothing else: `Relabelled`.

That no operation renames a job rests on the index of names.  An update with a name goes to the job
of that name.
-/

namespace JobGraph.Workflow

variable {w w' w'' : Workflow}

/-! ## Labels -/

/-- The name and the id of the job of a node. -/
def label? (w : Workflow) (key : NodeKey) : Option (String × Option String) :=
  (w.job? key).map fun job => (job.name, job.id)

/-- The index of names leads to jobs of that name. -/
def NamesTrue (w : Workflow) : Prop :=
  ∀ name key, w.byName.get? name = some key → ∃ id, w.label? key = some (name, id)

/-- One operation on single jobs, as far as labels and indices go. -/
inductive Relabelled (w w' : Workflow) : Prop
  | same (hlabel : w'.label? = w.label?) (hname : w'.byName = w.byName) (hid : w'.byId = w.byId)
  | entered {key : NodeKey} {name id : String} {old : Option String}
      (hold : w.label? key = some (name, old))
      (hlabel : w'.label? = Function.update w.label? key (some (name, some id)))
      (hname : w'.byName = w.byName) (hid : w'.byId = w.byId.insert id key)

theorem Relabelled.refl (w : Workflow) : Relabelled w w :=
  .same rfl rfl rfl

/-- What leaves labels and indices alone may follow. -/
theorem Relabelled.trans_same (h : Relabelled w w') (hlabel : w''.label? = w'.label?)
    (hname : w''.byName = w'.byName) (hid : w''.byId = w'.byId) : Relabelled w w'' := by
  cases h with
  | same hlabel' hname' hid' =>
      exact .same (hlabel.trans hlabel') (hname.trans hname') (hid.trans hid')
  | entered hold hlabel' hname' hid' =>
      exact .entered hold (hlabel.trans hlabel') (hname.trans hname') (hid.trans hid')

/-! ## Changes of one job -/

theorem label?_modifyJob {key : NodeKey} {change : Job → Job}
    (hchange : ∀ job, (change job).name = job.name ∧ (change job).id = job.id) :
    (w.modifyJob key change).label? = w.label? := by
  funext other
  unfold label?
  rw [job?_modifyJob]
  split
  · rw [Option.map_map]
    refine congrArg (fun read => (w.job? other).map read) (funext fun job => ?_)
    rw [Function.comp_apply, (hchange job).1, (hchange job).2]
  · rfl

theorem label_changeStatus (change : JobChange) (job : Job) :
    (changeStatus change job).name = job.name ∧ (changeStatus change job).id = job.id := by
  unfold changeStatus
  split
  · exact ⟨rfl, rfl⟩
  · split <;> exact ⟨rfl, rfl⟩
  · exact ⟨rfl, rfl⟩
  · exact ⟨rfl, rfl⟩

/-! ## Merging an update -/

/-- A merge keeps the name of the job that it finds. -/
theorem name_merge {key : NodeKey} {job update : Job} (hnames : NamesTrue w)
    (hkey : w.findKey (.of update) = .ok key) (hjob : w.job? key = some job) :
    (job.merge update).name = job.name := by
  unfold Job.merge
  dsimp only
  split
  · rfl
  · rename_i hname
    rw [findKey, JobRef.of, if_neg hname] at hkey
    obtain ⟨id, hlabel⟩ := hnames _ _ (lookUp_eq_ok.1 hkey)
    rw [label?, hjob, Option.map_some, Option.some.injEq, Prod.mk.injEq] at hlabel
    exact hlabel.1.symm

theorem relabelled_mergeUpdate {update : Job} {key : NodeKey} (hnames : NamesTrue w)
    (hok : w.mergeUpdate update = .ok (w', key)) : Relabelled w w' := by
  obtain ⟨job, hkey, hjob, rfl⟩ := mergeUpdate_eq_ok hok
  have hname := name_merge hnames hkey hjob
  have hold : w.label? key = some (job.name, job.id) := by
    rw [label?, hjob]
    rfl
  have hlabel : (w.modifyJob key fun _ => job.merge update).label? =
      Function.update w.label? key (some (job.name, (job.merge update).id)) := by
    funext other
    rw [label?, job?_modifyJob]
    by_cases hother : other = key
    · rw [if_pos hother, hother, hjob, Function.update_self, ← hname]
      rfl
    · rw [if_neg hother, Function.update_of_ne hother]
      rfl
  cases hid : (job.merge update).id with
  | none =>
      -- an update that leaves a job without an id found it without one
      have hnone : job.id = none := by
        rw [Job.merge, Option.or_eq_none_iff] at hid
        exact hid.2
      refine .same (hlabel.trans ?_) rfl rfl
      rw [hid, ← hnone, ← hold, Function.update_eq_self]
  | some id =>
      refine .entered hold ?_ rfl rfl
      rw [← hid]
      exact hlabel

/-! ## Operations on single jobs -/

theorem relabelled_updateJob (hnames : NamesTrue w) (update : Job) :
    Relabelled w (w.updateJob update).state := by
  unfold updateJob
  split
  · exact .refl w
  · rename_i updated key hok
    have hmerged := relabelled_mergeUpdate hnames hok
    split
    · exact hmerged
    · exact hmerged

theorem relabelled_applyJobChange (hnames : NamesTrue w) (id : Int) (change : JobChange)
    (payload : Json) : Relabelled w (w.applyJobChange id change payload).state := by
  cases hmerge : jobUpdate payload >>= w.mergeUpdate with
  | error error =>
      rw [applyJobChange, hmerge]
      exact .refl w
  | ok merged =>
      obtain ⟨job, -, happlied⟩ := applyJobChange_of_ok hmerge id change
      rw [happlied]
      have hstatus : (merged.1.modifyJob merged.2 (changeStatus change)).label? = merged.1.label? :=
        label?_modifyJob (label_changeStatus change)
      obtain ⟨update, -, hok⟩ := bind_eq_ok.1 hmerge
      exact (relabelled_mergeUpdate hnames hok).trans_same hstatus rfl rfl

theorem relabelled_applyEvent (hnames : NamesTrue w) (event : Event) :
    Relabelled w (w.applyEvent event).state := by
  unfold applyEvent
  split
  · split
    · exact .refl w
    · split
      · exact .refl w
      · exact relabelled_applyJobChange hnames _ _ _
      · unfold applyProgress
        split
        · exact .refl w
        · exact .same rfl rfl rfl
  · exact .refl w

theorem relabelled_takeEvent (hnames : NamesTrue w) (limit : Option Nat) (jobEvents : Nat)
    (event : Event) : Relabelled w (w.takeEvent limit jobEvents event).state := by
  rcases w.state_takeEvent limit jobEvents event with hsame | happlied
  · rw [hsame]
    exact .refl w
  · rw [happlied]
    exact relabelled_applyEvent hnames event

/-! ## Operations of a view -/

theorem Relabelled.modifyJob? (h : Relabelled w w') {change : Job → Job}
    (hchange : ∀ job, (change job).name = job.name ∧ (change job).id = job.id)
    (key : Option NodeKey) : Relabelled w (w'.modifyJob? key change) := by
  cases key with
  | none => exact h
  | some key => exact h.trans_same (label?_modifyJob hchange) rfl rfl

theorem relabelled_select (w : Workflow) (ref : Option JobRef) :
    Relabelled w (w.select ref).state := by
  have hmark : ∀ (mark : Bool) (job : Job), ({ job with isSelected := mark } : Job).name = job.name ∧
      ({ job with isSelected := mark } : Job).id = job.id := fun _ _ => ⟨rfl, rfl⟩
  have hset : ∀ key, Relabelled w (w.setSelected key) := by
    intro key
    have hcleared := (Relabelled.refl w).modifyJob? (hmark false) w.selected
    exact (hcleared.modifyJob? (hmark true) key).trans_same rfl rfl rfl
  unfold select
  split
  · exact .refl w
  · exact hset _

theorem relabelled_hover (w : Workflow) (ref : Option JobRef) :
    Relabelled w (w.hover ref).state := by
  have hmark : ∀ (mark : Bool) (job : Job), ({ job with isHovered := mark } : Job).name = job.name ∧
      ({ job with isHovered := mark } : Job).id = job.id := fun _ _ => ⟨rfl, rfl⟩
  have hset : ∀ key, Relabelled w (w.setHovered key) := by
    intro key
    have hcleared := (Relabelled.refl w).modifyJob? (hmark false) w.hovered
    exact (hcleared.modifyJob? (hmark true) key).trans_same rfl rfl rfl
  unfold hover
  split
  · exact .refl w
  · split
    · exact .refl w
    · exact hset _

end JobGraph.Workflow
