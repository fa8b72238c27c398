import JobGraph.Proofs.Graph.Payloads
import JobGraph.Proofs.Workflow.Lookup

/-!
# What one step may change

An event or an update changes one job at most, the one that it names, and leaves the rank of the job
and the marks of a view alone.  A view changes its own mark only, at the job it pointed at and at the
one it points at now.  The graph apart from its payloads and the order of the jobs stay as they
are: `Edited`.

This is said once for a change of a single job; every step is made of such changes.
-/

namespace JobGraph

/-- A job without the mark of the selection. -/
def Job.unselected (job : Job) : Job :=
  { job with isSelected := false }

/-- A job without the mark of the pointer. -/
def Job.unhovered (job : Job) : Job :=
  { job with isHovered := false }

/-- What events and updates leave alone: the rank, and whether a view points at the job. -/
def Job.standing (job : Job) : Option Nat × Bool × Bool :=
  (job.index, job.isSelected, job.isHovered)

namespace Workflow

variable {w w' w'' : Workflow}

/-! ## Edits -/

/-- `w'` is `w` with other jobs at the nodes that were touched, and all jobs keep a part of theirs. -/
structure Edited {Part : Type} (touched : NodeKey → Prop) (part : Job → Part) (w w' : Workflow) :
    Prop where
  withoutData_eq : w'.graph.withoutData = w.graph.withoutData
  jobKeys_eq : w'.jobKeys = w.jobKeys
  job?_eq : ∀ key, ¬ touched key → w'.job? key = w.job? key
  part_eq : ∀ key, (w'.job? key).map part = (w.job? key).map part

namespace Edited

variable {Part : Type} {touched : NodeKey → Prop} {part : Job → Part}

theorem refl (w : Workflow) : Edited touched part w w :=
  ⟨rfl, rfl, fun _ _ => rfl, fun _ => rfl⟩

theorem trans (h : Edited touched part w w') (h' : Edited touched part w' w'') :
    Edited touched part w w'' where
  withoutData_eq := h'.withoutData_eq.trans h.withoutData_eq
  jobKeys_eq := h'.jobKeys_eq.trans h.jobKeys_eq
  job?_eq key hkey := (h'.job?_eq key hkey).trans (h.job?_eq key hkey)
  part_eq key := (h'.part_eq key).trans (h.part_eq key)

/-- Only the graph and the order of the jobs are looked at. -/
theorem congr (h : Edited touched part w w') (hgraph : w''.graph = w'.graph)
    (hkeys : w''.jobKeys = w'.jobKeys) : Edited touched part w w'' := by
  have hjob : w''.job? = w'.job? := by
    funext key
    rw [job?, hgraph, job?]
  refine ⟨?_, ?_, ?_, ?_⟩
  · rw [hgraph, h.withoutData_eq]
  · rw [hkeys, h.jobKeys_eq]
  · rw [hjob]
    exact h.job?_eq
  · rw [hjob]
    exact h.part_eq

end Edited

/-- Changing one job touches that job. -/
theorem edited_modifyJob {Part : Type} {touched : NodeKey → Prop} {part : Job → Part}
    {key : NodeKey} {change : Job → Job} (hkey : touched key)
    (hpart : ∀ job, w.job? key = some job → part (change job) = part job) :
    Edited touched part w (w.modifyJob key change) where
  withoutData_eq := Graph.withoutData_modifyData w.graph key change
  jobKeys_eq := rfl
  job?_eq other hother := by
    rw [job?_modifyJob, if_neg]
    rintro rfl
    exact hother hkey
  part_eq other := by
    rw [job?_modifyJob]
    split
    · rename_i heq
      subst heq
      cases hjob : w.job? other with
      | none => rfl
      | some job => simp [hpart job hjob]
    · rfl

theorem edited_modifyJob? {Part : Type} {touched : NodeKey → Prop} {part : Job → Part}
    (key : Option NodeKey) (change : Job → Job) (hkey : ∀ found, key = some found → touched found)
    (hpart : ∀ job, part (change job) = part job) :
    Edited touched part w (w.modifyJob? key change) := by
  cases key with
  | none => exact .refl w
  | some found => exact edited_modifyJob (hkey found rfl) fun job _ => hpart job

/-! ## Events and updates -/

/-- The node of the job that an update names. -/
def named? (w : Workflow) (update : Job) : Option NodeKey :=
  (w.findKey (.of update)).toOption

/-- The node of the job that the payload of an event names. -/
def subject? (w : Workflow) (event : Event) : Option NodeKey := do
  let payload ← event.payload
  let update ← (jobUpdate payload).toOption
  w.named? update

theorem standing_changeStatus (change : JobChange) (job : Job) :
    (changeStatus change job).standing = job.standing := by
  unfold changeStatus
  split
  · rfl
  · split <;> rfl
  · rfl
  · rfl

theorem edited_mergeUpdate {update : Job} {key : NodeKey}
    (hok : w.mergeUpdate update = .ok (w', key)) :
    w.named? update = some key ∧
      Edited (fun key => w.named? update = some key) Job.standing w w' := by
  obtain ⟨job, hkey, hjob, rfl⟩ := mergeUpdate_eq_ok hok
  have hnamed : w.named? update = some key := by
    rw [named?, hkey]
    rfl
  refine ⟨hnamed, Edited.congr (edited_modifyJob hnamed fun old hold => ?_) rfl rfl⟩
  rw [hjob, Option.some.injEq] at hold
  rw [← hold]
  rfl

theorem edited_updateJob (w : Workflow) (update : Job) :
    Edited (fun key => w.named? update = some key) Job.standing w (w.updateJob update).state := by
  cases hmerge : w.mergeUpdate update with
  | error error =>
      rw [updateJob, hmerge]
      exact .refl w
  | ok merged =>
      obtain ⟨job, -, hupdated⟩ := updateJob_of_ok hmerge
      rw [hupdated]
      exact (edited_mergeUpdate hmerge).2

theorem edited_applyEvent (w : Workflow) (event : Event) :
    Edited (fun key => w.subject? event = some key) Job.standing w (w.applyEvent event).state := by
  unfold applyEvent
  split
  · rename_i id kindName payload _ _ hpayload
    split
    · exact .refl w
    · split
      · exact .refl w
      · rename_i change _
        cases hmerge : jobUpdate payload >>= w.mergeUpdate with
        | error error =>
            rw [applyJobChange, hmerge]
            exact .refl w
        | ok merged =>
            obtain ⟨job, -, happlied⟩ := applyJobChange_of_ok hmerge id change
            rw [happlied]
            obtain ⟨update, hupdate, hok⟩ := bind_eq_ok.1 hmerge
            obtain ⟨hnamed, hmerged⟩ := edited_mergeUpdate hok
            have hsubject : w.subject? event = w.named? update := by
              rw [subject?, hpayload, Option.bind_eq_bind, Option.bind_some, hupdate]
              rfl
            rw [hsubject]
            have hchanged : Edited (fun key => w.named? update = some key) Job.standing merged.1
                (merged.1.modifyJob merged.2 (changeStatus change)) :=
              edited_modifyJob hnamed fun job _ => standing_changeStatus change job
            exact (hmerged.trans hchanged).congr rfl rfl
      · unfold applyProgress
        split
        · exact .refl w
        · exact (Edited.refl w).congr rfl rfl
  · exact .refl w

theorem edited_takeEvent (w : Workflow) (limit : Option Nat) (jobEvents : Nat) (event : Event) :
    Edited (fun key => w.subject? event = some key) Job.standing w
      (w.takeEvent limit jobEvents event).state := by
  rcases w.state_takeEvent limit jobEvents event with hsame | happlied
  · rw [hsame]
    exact .refl w
  · rw [happlied]
    exact w.edited_applyEvent event

/-! ## Views -/

theorem edited_select (w : Workflow) (ref : Option JobRef) :
    Edited (fun key => w.selected = some key ∨ (w.select ref).state.selected = some key)
      Job.unselected w (w.select ref).state := by
  unfold select
  split
  · exact .refl w
  · rename_i key hkey
    dsimp only
    generalize (if key = w.selected then none else key) = current
    have hcleared : Edited (fun key => w.selected = some key ∨ current = some key) Job.unselected w
        (w.modifyJob? w.selected fun job => { job with isSelected := false }) :=
      edited_modifyJob? _ _ (fun found hfound => .inl hfound) fun _ => rfl
    exact (hcleared.trans (edited_modifyJob? current (fun job => { job with isSelected := true })
      (fun found hfound => .inr hfound) fun _ => rfl)).congr rfl rfl

theorem edited_hover (w : Workflow) (ref : Option JobRef) :
    Edited (fun key => w.hovered = some key ∨ (w.hover ref).state.hovered = some key)
      Job.unhovered w (w.hover ref).state := by
  unfold hover
  split
  · exact .refl w
  · rename_i key hkey
    split
    · exact .refl w
    · have hcleared : Edited (fun other => w.hovered = some other ∨ key = some other) Job.unhovered w
          (w.modifyJob? w.hovered fun job => { job with isHovered := false }) :=
        edited_modifyJob? _ _ (fun found hfound => .inl hfound) fun _ => rfl
      exact (hcleared.trans (edited_modifyJob? key (fun job => { job with isHovered := true })
        (fun found hfound => .inr hfound) fun _ => rfl)).congr rfl rfl

end Workflow

end JobGraph
