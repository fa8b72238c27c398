import JobGraph.Error
import JobGraph.Graph.Layout
import JobGraph.Workflow.Notice

/-!
# Workflows

The state of a monitored workflow: the graph of its jobs, two indices of them, what events have
been applied and which jobs a view points at.  This module holds the state, the ways to look a job
up and the updates of single jobs.
-/

namespace JobGraph

/-- A monitored workflow. -/
structure Workflow where
  id : Option String
  options : LayoutOptions
  graph : Graph Job
  /-- The nodes of the jobs: the placed ones by rank, then those left out. -/
  jobKeys : List NodeKey
  byName : IdIndex
  byId : IdIndex
  /-- The percentage last reported. -/
  progress : Nat
  /-- The id of the last event applied, or minus one. -/
  lastEvent : Int
  selected : Option NodeKey
  hovered : Option NodeKey
  deriving Inhabited

namespace Workflow

/-- A workflow without jobs. -/
def new (id : Option String) (options : LayoutOptions) : Workflow :=
  { id, options, graph := .empty, jobKeys := [], byName := .empty, byId := .empty, progress := 0,
    lastEvent := -1, selected := none, hovered := none }

/-! ## Reading -/

/-- The job of a node. -/
def job? (w : Workflow) (key : NodeKey) : Option Job :=
  w.graph.data? key

/-- All jobs, in the order of their nodes. -/
def jobs (w : Workflow) : List Job :=
  w.jobKeys.filterMap w.job?

/-- The selected job. -/
def selectedJob? (w : Workflow) : Option Job :=
  w.selected.bind w.job?

/-- The job under the pointer. -/
def hoveredJob? (w : Workflow) : Option Job :=
  w.hovered.bind w.job?

/-- A reference to the job of a node. -/
def refOf (w : Workflow) (key : Option NodeKey) : Option JobRef :=
  (key.bind w.job?).map JobRef.of

/-- Whether the workflow is over: all of it is done and every job has stopped. -/
def isComplete (w : Workflow) : Bool :=
  w.progress == 100 && w.jobs.all fun job => job.status.isFinished

/-! ## Looking jobs up -/

/-- The node that an index has for a name or id. -/
def lookUp (index : IdIndex) (field reference : String) : Except WorkflowError NodeKey :=
  match index.get? reference with
  | some key => .ok key
  | none => .error (.jobNotFound field reference)

/-- The node that a reference names: by name, or by id when it has no name. -/
def findKey (w : Workflow) (ref : JobRef) : Except WorkflowError NodeKey :=
  match ref.name, ref.id with
  | some name, _ => lookUp w.byName "name" name
  | none, some id => lookUp w.byId "id" id
  | none, none => .error .missingJobReference

/-- The job that a reference names. -/
def find (w : Workflow) (ref : JobRef) : Except WorkflowError Job := do
  let key ← w.findKey ref
  match w.job? key with
  | some job => .ok job
  | none => .error (.jobNotFound "key" ("#" ++ toString key))

/-! ## Updating jobs -/

/-- Changes the job of a node. -/
def modifyJob (w : Workflow) (key : NodeKey) (change : Job → Job) : Workflow :=
  { w with graph := w.graph.modifyData key change }

/-- Merges an update into the job it names and enters the job's id into the index of ids. -/
def mergeUpdate (w : Workflow) (update : Job) : Except WorkflowError (Workflow × NodeKey) := do
  let key ← w.findKey (.of update)
  match w.job? key with
  | none => .error .missingJobReference
  | some job =>
      let merged := job.merge update
      let byId := match merged.id with
        | some id => w.byId.insert id key
        | none => w.byId
      .ok ({ w.modifyJob key fun _ => merged with byId }, key)

/-- Merges an update into the job it names; the answer is the job after it. -/
def updateJob (w : Workflow) (update : Job) : Reaction Workflow (Except WorkflowError Job) :=
  match w.mergeUpdate update with
  | .error error => ⟨w, [], .error error⟩
  | .ok (updated, key) =>
      match updated.job? key with
      | some job => ⟨updated, [], .ok job⟩
      | none => ⟨updated, [], .error .missingJobReference⟩

/-- Sets the percentage, at most one hundred. -/
def setProgress (w : Workflow) (progress : Nat) : Reaction Workflow Unit :=
  let progress := min progress 100
  ⟨{ w with progress }, [.progressChanged progress], ()⟩

end Workflow

end JobGraph
