import JobGraph.Proofs.Graph.LayoutFailures
import JobGraph.Proofs.Workflow.Loading

/-!
# Loading anew

A load replaces all that a workflow knows of its jobs and all that happened to them, or nothing.

* **Failing.**  A load fails where the layout of the graph of its list fails: when the workflow wants
  strict layerings and some job depends on itself, directly or through others.  The workflow stays as
  it is, and its listeners hear that the load began and that it failed.
* **Succeeding.**  The workflow keeps its id and its options.  All else is what a new workflow with
  these options gets from the same list, so that nothing of what happened before is left.
-/

namespace JobGraph.Workflow

variable {w w' : Workflow} {entries : List JobEntry}

theorem load_of_layOut_error {g : Graph Job} {fault : GraphError}
    (h : (jobGraph (JobEntry.linkedJobs entries)).layOut w.options = (g, .error fault)) :
    w.load entries =
      ⟨w, [.loadingJobs, .loadFailed fault.message], .error (.graph fault)⟩ := by
  rw [load, h]

theorem load_of_layOut_ok {g : Graph Job} {report : LayeringReport}
    (h : (jobGraph (JobEntry.linkedJobs entries)).layOut w.options = (g, .ok report)) :
    w.load entries =
      ⟨w.withGraph g, [.loadingJobs, .jobsLoaded (orderedKeys g).length g.waypointKeys.length],
        .ok report⟩ := by
  rw [load, h]
  rfl

/-- A load that fails leaves the workflow alone. -/
theorem load_of_error {error : WorkflowError} (h : (w.load entries).answer = .error error) :
    (w.load entries).state = w ∧ ∃ fault, error = .graph fault ∧
      (w.load entries).notices = [.loadingJobs, .loadFailed fault.message] := by
  rcases hlaid : (jobGraph (JobEntry.linkedJobs entries)).layOut w.options with ⟨g, fault | report⟩
  · rw [load_of_layOut_error hlaid] at h ⊢
    exact ⟨rfl, fault, (Except.error.inj h).symm, rfl⟩
  · rw [load_of_layOut_ok hlaid] at h
    exact absurd h nofun

/-- Of a workflow, a load that succeeds reads the options only and keeps the id. -/
theorem load_congr {report : LayeringReport} (h : (w.load entries).answer = .ok report)
    (w' : Workflow) (hoptions : w'.options = w.options) :
    w'.load entries =
      ⟨{ (w.load entries).state with id := w'.id }, (w.load entries).notices, .ok report⟩ := by
  rcases hlaid : (jobGraph (JobEntry.linkedJobs entries)).layOut w.options with ⟨g, fault | other⟩
  · rw [load_of_layOut_error hlaid] at h
    exact absurd h nofun
  · rw [load_of_layOut_ok hlaid] at h ⊢
    rw [load_of_layOut_ok (hoptions ▸ hlaid), ← Except.ok.inj h, withGraph, hoptions]
    rfl

/-- Two workflows of one id and the same options load a list alike. -/
theorem load_eq_of_id_eq {report : LayeringReport} (hid : w'.id = w.id)
    (hoptions : w'.options = w.options) (h : (w.load entries).answer = .ok report) :
    w'.load entries = w.load entries := by
  rw [load_congr h w' hoptions, hid]
  exact (load_congr h w rfl).symm

theorem error_load_iff : (∃ error, (w.load entries).answer = .error error) ↔
    w.options.cyclePolicy = .strict ∧
      ∃ key, (jobGraph (JobEntry.linkedJobs entries)).OnCycle key := by
  have hlinked : Graph.Linked (jobGraph (JobEntry.linkedJobs entries)) :=
    (Graph.consistent_ofRecords _ _ _).toLinked
  rw [← hlinked.error_layOut_iff (lists_jobGraph entries).1.routed_eq]
  rcases hlaid : (jobGraph (JobEntry.linkedJobs entries)).layOut w.options with ⟨g, fault | report⟩
  · rw [load_of_layOut_error hlaid]
    exact iff_of_true ⟨_, rfl⟩ ⟨_, rfl⟩
  · rw [load_of_layOut_ok hlaid]
    exact iff_of_false nofun nofun

/-- **Loading anew.**  A load fails exactly on a cycle under a strict policy, and then it changes
nothing.  When it succeeds, nothing is left of what the workflow was before but its id and its
options. -/
theorem load_allOrNothing (w : Workflow) (entries : List JobEntry) :
    ((∃ error, (w.load entries).answer = .error error) ↔
        w.options.cyclePolicy = .strict ∧
          ∃ key, (jobGraph (JobEntry.linkedJobs entries)).OnCycle key) ∧
      (∀ error, (w.load entries).answer = .error error →
        (w.load entries).state = w ∧ ∃ fault, error = .graph fault ∧
          (w.load entries).notices = [.loadingJobs, .loadFailed fault.message]) ∧
      ∀ report, (w.load entries).answer = .ok report → ∀ id,
        (w.load entries).state = { ((new id w.options).load entries).state with id := w.id } ∧
          ((new id w.options).load entries).answer = .ok report ∧
          ((new id w.options).load entries).notices = (w.load entries).notices := by
  refine ⟨error_load_iff, fun error => load_of_error, fun report hok id => ?_⟩
  have hfresh := load_congr hok (new id w.options) rfl
  have hsame := load_congr hok w rfl
  rw [hfresh]
  exact ⟨congrArg Reaction.state hsame, rfl, rfl⟩

/-- A workflow under a strict policy in which something happened: a job is done, half of the work is
reported, and a job is selected. -/
def underway : Workflow :=
  (new (some "w") { LayoutOptions.default with cyclePolicy := .strict }).run
    [.load [⟨"a", .blank, ["b"]⟩, ⟨"b", .blank, []⟩],
      .applyEvent (.new 4 (.job .complete) (.object [("job", .object [("name", .string "a")])])),
      .setProgress 50, .select (some ⟨some "b", none⟩)]

/-- Two jobs that depend on each other do not get in, and one by itself starts afresh. -/
theorem load_underway :
    (underway.progress = 50 ∧ underway.lastEvent = 4 ∧ underway.selected = some 1) ∧
      (underway.load [⟨"a", .blank, ["b"]⟩, ⟨"b", .blank, ["a"]⟩]).state = underway ∧
      (underway.load [⟨"c", .blank, []⟩]).state =
        { ((new none underway.options).load [⟨"c", .blank, []⟩]).state with id := underway.id } := by
  have hstrict : underway.options.cyclePolicy = .strict := by decide +kernel
  obtain ⟨error, herror⟩ : ∃ error,
      (underway.load [⟨"a", .blank, ["b"]⟩, ⟨"b", .blank, ["a"]⟩]).answer = .error error := by
    refine (load_allOrNothing _ _).1.2 ⟨hstrict, 0, .tail (b := 1) (.single ?_) ?_⟩
    · show 1 ∈ (jobGraph _).parentsOf 0
      decide +kernel
    · show 0 ∈ (jobGraph _).parentsOf 1
      decide +kernel
  have hok : (underway.load [⟨"c", .blank, []⟩]).answer = .ok ⟨1, 0, []⟩ := by decide +kernel
  exact ⟨by decide +kernel, ((load_allOrNothing _ _).2.1 error herror).1,
    ((load_allOrNothing _ _).2.2 _ hok none).1⟩

end JobGraph.Workflow
