import JobGraph.Job.Basic
import JobGraph.Proofs.Json.Fields
import Mathlib.Data.List.Induction

/-!
# Merging jobs

An update overwrites a job part by part, and each part has its own way of saying nothing: a name or a list
that is empty, an id that is missing, a status that has not begun, a field that is not there.  A part that
says nothing is passed over, so of two updates the last one that says something counts.  That does not
depend on which two of the three are merged first.

So updates may be gathered before they are merged, `foldl_merge`, and a batch of them may be delivered
again, `foldl_merge_foldl_merge`.  The rank of a job and the marks of its views are no affair of an update.
-/

namespace JobGraph.Job

/-! ## Parts that may say nothing -/

section Overwritten

variable {α : Type} (silent : α → Prop) [DecidablePred silent]

/-- A part after an update, where some values of the part say nothing. -/
def overwritten (old update : α) : α :=
  if silent update then old else update

theorem overwritten_assoc (old first second : α) :
    overwritten silent (overwritten silent old first) second =
      overwritten silent old (overwritten silent first second) := by
  unfold overwritten
  by_cases hsecond : silent second
  · rw [if_pos hsecond, if_pos hsecond]
  · rw [if_neg hsecond, if_neg hsecond, if_neg hsecond]

theorem overwritten_self (value : α) : overwritten silent value value = value :=
  ite_self value

/-- Over a value that says nothing goes whatever is said, as long as there is one such value only. -/
theorem overwritten_eq_update (old update : α) (h : ∀ value, silent value → value = old) :
    overwritten silent old update = update := by
  unfold overwritten
  split
  · rename_i hsilent
    exact (h update hsilent).symm
  · rfl

end Overwritten

/-! ## Merging once more -/

variable (job update first second : Job)

theorem merge_eq : job.merge update = { job with
    name := overwritten (fun name => name.isEmpty = true) job.name update.name
    id := update.id.or job.id
    status := overwritten (fun status => status = .pending) job.status update.status
    parentNames := overwritten (fun names => names.isEmpty = true) job.parentNames update.parentNames
    childNames := overwritten (fun names => names.isEmpty = true) job.childNames update.childNames
    extra := job.extra.overwrite update.extra } :=
  rfl

/-- Merging updates one by one is merging them first. -/
theorem merge_assoc : (job.merge first).merge second = job.merge (first.merge second) := by
  simp only [merge_eq, overwritten_assoc, Option.or_assoc, Json.Fields.overwrite_assoc]

/-- What a job says already changes nothing. -/
theorem merge_self : job.merge job = job := by
  simp only [merge_eq, overwritten_self, Option.or_self, Json.Fields.overwrite_self]

/-- A blank update says nothing. -/
theorem merge_blank : job.merge blank = job :=
  rfl

/-- A blank job takes over what the update says, which is all of it but its rank and its marks. -/
theorem blank_merge :
    blank.merge update = { update with index := none, isSelected := false, isHovered := false } := by
  have hname := overwritten_eq_update (fun name => name.isEmpty = true) "" update.name
    fun _ => String.isEmpty_iff.1
  have hstatus := overwritten_eq_update (fun status => status = .pending) .pending update.status
    fun _ h => h
  have hnames : ∀ names : List String, overwritten (fun names => names.isEmpty = true) [] names = names :=
    fun names => overwritten_eq_update _ [] names fun _ => List.isEmpty_iff.1
  simp only [merge_eq, blank, hname, hstatus, hnames, Option.or_none, Json.Fields.empty_overwrite]

/-! ## Many updates -/

/-- Many updates are merged like one, which gathers what they say. -/
theorem foldl_merge (updates : List Job) :
    updates.foldl merge job = job.merge (updates.foldl merge blank) := by
  induction updates using List.reverseRecOn with
  | nil => rfl
  | append_singleton updates update ih =>
      rw [List.foldl_concat, List.foldl_concat, ih, merge_assoc]

/-- Updates that are delivered again, as a whole and in their order, change nothing. -/
theorem foldl_merge_foldl_merge (updates : List Job) :
    updates.foldl merge (updates.foldl merge job) = updates.foldl merge job := by
  rw [foldl_merge, foldl_merge job, merge_assoc, merge_self]

/-- **Merging.**  Updates are merged one by one as when the second is merged into the first before; an
update that is merged twice counts once; and merging leaves the rank of the job and its marks alone.
Blank updates say nothing, and over a blank job an update stands as it is. -/
theorem merge_gathered (job first second : Job) :
    (job.merge first).merge second = job.merge (first.merge second) ∧
      (job.merge first).merge first = job.merge first ∧
      (job.merge first).index = job.index ∧
      (job.merge first).isSelected = job.isSelected ∧
      (job.merge first).isHovered = job.isHovered ∧
      job.merge blank = job ∧
      blank.merge first = { first with index := none, isSelected := false, isHovered := false } := by
  have hagain : (job.merge first).merge first = job.merge first := by
    rw [merge_assoc, merge_self]
  exact ⟨merge_assoc job first second, hagain, rfl, rfl, rfl, merge_blank job, blank_merge first⟩

end JobGraph.Job
