import JobGraph.Graph.Layout
import JobGraph.Job.Basic
import JobGraph.Text.Padded
import JobGraph.Workflow.Basic

/-!
# Reports

The texts that the program prints about itself, about layouts and about workflows under way.
-/

namespace JobGraph

/-- A line of output; a text may also hold several lines. -/
inductive OutputLine where
  | out (text : String)
  /-- A line for the error output. -/
  | err (text : String)
  deriving DecidableEq, Repr

namespace Report

/-- The name of the program. -/
def programName : String := "ambrose"

/-- The version of the program. -/
def programVersion : String := "0.4.0"

/-- How the program is used. -/
def usage : List String :=
  ["Ambrose v" ++ programVersion,
   "",
   "Usage: " ++ programName ++ " <command> [options]",
   "",
   "Commands:",
   "  layout <jobs.json> [options]      Print layers and the transition matrix",
   "  json <jobs.json> [options]        Print the serialized layout as JSON",
   "  replay <jobs.json> <events.json>  Replay recorded events one at a time",
   "  watch [config.toml]               Poll a live server until the workflow completes",
   "  help                              Show this help message",
   "",
   "Layout options:",
   "  --strict          Fail on cycles instead of leaving nodes out",
   "  --no-pseudo       Do not insert pseudo nodes",
   "  --order <n>       Barycenter sweeps for crossing reduction (default: 0)",
   "",
   "Logging is controlled with RUST_LOG (default: warn)."]

/-! ## Layouts -/

variable {α : Type}

/-- The numbers of nodes and layers, and the nodes left out. -/
def summary (g : Graph α) (report : LayeringReport) : List String :=
  let counts := toString g.realKeys.length ++ " job(s), " ++ toString g.waypointKeys.length ++
    " pseudo node(s), " ++ toString report.layerCount ++ " layer(s)"
  let leftOut :=
    if report.isComplete then []
    else ["Left out (cycle): " ++ ", ".intercalate report.excluded]
  counts :: leftOut

/-- A node in the list of its layer; waypoints stand in parentheses. -/
def layerEntry (g : Graph α) (key : NodeKey) : String :=
  if g.isWaypoint key then "(" ++ g.idOf key ++ ")" else g.idOf key

/-- One line for each layer, the lowest first. -/
def layerLines (g : Graph α) : List String :=
  g.layers.zipIdx.map fun numbered =>
    "  " ++ Text.padStart 3 (toString numbered.2) ++ ": " ++
      "  ".intercalate (numbered.1.map (layerEntry g))

/-- The word for an indexing. -/
def indexingWord : MatrixIndexing → String
  | .rank => "Topological"
  | .insertion => "Insertion"

/-- The dependency matrix with the placed nodes before its rows. -/
def matrixLines (g : Graph α) (matrix : DependencyMatrix) : List String :=
  let rows := (g.ranking.zip matrix.rows).map fun row =>
    "  " ++ Text.padEnd 24 (g.idOf row.1) ++ " " ++ " ".intercalate (row.2.map toString)
  if matrix.size = 0 then []
  else ["", "Transition matrix (" ++ indexingWord matrix.indexing ++ " order):"] ++ rows

/-- The whole report about a layout. -/
def layout (g : Graph α) (report : LayeringReport) : List String :=
  summary g report ++ [""] ++ layerLines g ++ matrixLines g (g.matrix none)

/-! ## Workflows under way -/

/-- The line for a notice, if it is worth one. -/
def noticeLine? : Notice → Option OutputLine
  | .jobChanged job status event _ =>
      some (.out ("  #" ++ Text.padEnd 5 (toString event) ++ " " ++
        Text.padEnd 32 job.shown ++ " " ++ status.name))
  | .progressChanged progress => some (.out ("  workflow " ++ toString progress ++ "%"))
  | .workflowComplete => some (.out "Workflow complete")
  | .pollFailed message failures =>
      some (.err ("  poll failed (" ++ toString failures ++ "): " ++ message))
  | _ => none

/-- The id of an event, or the word for none. -/
def eventWord : Option Int → String
  | none => "None"
  | some id => "Some(" ++ toString id ++ ")"

/-- The line for an event that was rejected. -/
def rejectionLine (rejected : Option Int × WorkflowError) : String :=
  "  event " ++ eventWord rejected.1 ++ " rejected: " ++ rejected.2.message

/-- The line for a job at the end. -/
def jobLine (job : Job) : String :=
  "  " ++ Text.padEnd 32 job.name ++ " " ++ job.status.name

end Report

end JobGraph
