import JobGraph.Proofs.Graph.Reading
import JobGraph.Proofs.Steps
import JobGraph.Workflow.Events

/-!
# Merging an update

An update is merged into the job that it names, and nothing is changed before that job was found.
So where a merge succeeds, the job is there to be read again, whatever is done to it: an event about
a job that was merged is applied, and an update that was merged is answered with the job.
-/

namespace JobGraph.Workflow

variable {w w' : Workflow}

/-! ## Looking up and changing a job -/

theorem job?_modifyJob (w : Workflow) (key other : NodeKey) (change : Job → Job) :
    (w.modifyJob key change).job? other =
      if other = key then (w.job? other).map change else w.job? other :=
  w.graph.data?_modifyData key other change

theorem lookUp_eq_ok {index : IdIndex} {field reference : String} {key : NodeKey} :
    lookUp index field reference = .ok key ↔ index.get? reference = some key := by
  unfold lookUp
  cases index.get? reference <;> simp

/-! ## Merging -/

theorem mergeUpdate_eq_ok {update : Job} {key : NodeKey}
    (hok : w.mergeUpdate update = .ok (w', key)) :
    ∃ job, w.findKey (.of update) = .ok key ∧ w.job? key = some job ∧
      w' = { w.modifyJob key fun _ => job.merge update with
        byId := match (job.merge update).id with
          | some id => w.byId.insert id key
          | none => w.byId } := by
  obtain ⟨found, hkey, hok⟩ := bind_eq_ok.1 hok
  cases hjob : w.job? found with
  | none => simp [hjob] at hok
  | some job =>
      simp only [hjob, Except.ok.injEq, Prod.mk.injEq] at hok
      obtain ⟨hstate, rfl⟩ := hok
      exact ⟨job, hkey, hjob, hstate.symm⟩

/-- What was merged is read again. -/
theorem job?_of_mergeUpdate {update : Job} {key : NodeKey}
    (hok : w.mergeUpdate update = .ok (w', key)) :
    ∃ job, w.job? key = some job ∧ w'.job? key = some (job.merge update) := by
  obtain ⟨job, -, hjob, rfl⟩ := mergeUpdate_eq_ok hok
  refine ⟨job, hjob, ?_⟩
  show (w.modifyJob key fun _ => job.merge update).job? key = some (job.merge update)
  rw [job?_modifyJob, if_pos rfl, hjob, Option.map_some]

/-- An update that was merged is answered with the job. -/
theorem updateJob_of_ok {update : Job} {key : NodeKey}
    (hok : w.mergeUpdate update = .ok (w', key)) :
    ∃ job, w'.job? key = some job ∧ w.updateJob update = ⟨w', [], .ok job⟩ := by
  obtain ⟨job, -, hmerged⟩ := job?_of_mergeUpdate hok
  refine ⟨job.merge update, hmerged, ?_⟩
  rw [updateJob, hok]
  simp only [hmerged]

/-- An event about a job that was merged is applied. -/
theorem applyJobChange_of_ok {payload : Json} {key : NodeKey}
    (hok : jobUpdate payload >>= w.mergeUpdate = .ok (w', key)) (id : Int) (change : JobChange) :
    ∃ job, w'.job? key = some job ∧ w.applyJobChange id change payload =
      ⟨{ w'.modifyJob key (changeStatus change) with lastEvent := id },
        [.jobChanged (.of (changeStatus change job)) (changeStatus change job).status id change],
        .ok (.applied (.job change))⟩ := by
  obtain ⟨update, -, hmerge⟩ := bind_eq_ok.1 hok
  obtain ⟨job, -, hjob⟩ := job?_of_mergeUpdate hmerge
  replace hjob : ∃ job, w'.job? key = some job := ⟨_, hjob⟩
  obtain ⟨job, hjob⟩ := hjob
  have hchanged : ({ w'.modifyJob key (changeStatus change) with lastEvent := id } : Workflow).job?
      key = some (changeStatus change job) := by
    show (w'.modifyJob key (changeStatus change)).job? key = _
    rw [job?_modifyJob, if_pos rfl, hjob, Option.map_some]
  refine ⟨job, hjob, ?_⟩
  rw [applyJobChange, hok]
  simp only [hchanged]

end JobGraph.Workflow
