import JobGraph.Graph.Edges
import JobGraph.Workflow.Basic

/-!
# Loading jobs

Replacing all jobs of a workflow by those of a job list.  The list says for each job who depends on
it; turned around, that gives the parents of each job, added to those that the job itself names.  A
name that several entries share stands for the first of them where the list is turned around, and
for the last where the edges of the graph are drawn.
-/

namespace JobGraph

namespace JobEntry

/-- The job of an entry as it comes into a workflow: under the name of the entry, without its bulky
fields and without a place in any layout. -/
def freshJob (entry : JobEntry) : Job :=
  { entry.job.strip with
    name := entry.name, index := none, isSelected := false, isHovered := false }

/-- The place of the first entry of a name. -/
def placeOf? (entries : List JobEntry) (name : String) : Option Nat :=
  entries.findIdx? fun entry => entry.name == name

/-- The names of the entries that list a name among those depending on them, once for each time they
do. -/
def dependencies (entries : List JobEntry) (name : String) : List String :=
  entries.flatMap fun entry =>
    (entry.successorNames.filter fun successor => successor == name).map fun _ => entry.name

/-- The job at a place of the list. -/
def linkedJob (entries : List JobEntry) (entry : JobEntry) (place : Nat) : Job :=
  let job := entry.freshJob
  let derived :=
    if placeOf? entries entry.name = some place then dependencies entries entry.name else []
  { job with
    parentNames := job.parentNames ++ derived
    childNames := entry.successorNames }

/-- The jobs of a list. -/
def linkedJobs (entries : List JobEntry) : List Job :=
  entries.zipIdx.map fun numbered => linkedJob entries numbered.1 numbered.2

end JobEntry

namespace Workflow

/-- The graph of a list of jobs before it is laid out. -/
def jobGraph (jobs : List Job) : Graph Job :=
  Graph.ofRecords Job.name Job.parentNames jobs

/-- The nodes by the names of their jobs; of several the first. -/
def nameIndex (g : Graph Job) : IdIndex :=
  g.realKeys.foldl (fun index key =>
    match g.data? key with
    | some job => index.insertNew job.name key
    | none => index) .empty

/-- The nodes by the ids of their jobs; of several the first. -/
def runIdIndex (g : Graph Job) : IdIndex :=
  g.realKeys.foldl (fun index key =>
    match (g.data? key).bind Job.id with
    | some id => index.insertNew id key
    | none => index) .empty

/-- The graph with each placed job knowing its rank. -/
def numberJobs (g : Graph Job) : Graph Job :=
  g.ranking.zipIdx.foldl (fun g numbered =>
    g.modifyData numbered.1 fun job => { job with index := some numbered.2 }) g

/-- The nodes of all jobs: the placed ones by rank, then those left out. -/
def orderedKeys (g : Graph Job) : List NodeKey :=
  g.ranking ++ g.realKeys.filter fun key => (g.rankOf key).isNone

/-- The workflow with the jobs of a graph that was laid out.  Nothing has happened to them yet, and
no view points at one. -/
def withGraph (w : Workflow) (g : Graph Job) : Workflow :=
  { w with
    graph := numberJobs g
    jobKeys := orderedKeys g
    byName := nameIndex g
    byId := runIdIndex g
    progress := 0
    lastEvent := -1
    selected := none
    hovered := none }

/-- Loads a job list.  When its graph cannot be laid out, the workflow stays as it is. -/
def load (w : Workflow) (entries : List JobEntry) :
    Reaction Workflow (Except WorkflowError LayeringReport) :=
  match (jobGraph (JobEntry.linkedJobs entries)).layOut w.options with
  | (_, .error error) =>
      ⟨w, [.loadingJobs, .loadFailed error.message], .error (.graph error)⟩
  | (g, .ok report) =>
      let loaded := w.withGraph g
      ⟨loaded, [.loadingJobs, .jobsLoaded loaded.jobKeys.length g.waypointKeys.length],
        .ok report⟩

end Workflow

end JobGraph
