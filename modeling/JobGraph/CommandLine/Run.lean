import JobGraph.CommandLine.Command
import JobGraph.CommandLine.Report
import JobGraph.Polling.Playback
import JobGraph.Settings.Decoding
import JobGraph.Snapshot.Json

/-!
# Running commands

What each command prints, given the files it reads, and the code with which the program ends.
-/

namespace JobGraph

/-- What a run of the program leaves behind. -/
structure ProgramResult where
  exitCode : Nat
  lines : List OutputLine
  deriving DecidableEq, Repr

namespace ProgramResult

/-- A run without an error. -/
def success (lines : List OutputLine) : ProgramResult :=
  ⟨0, lines⟩

/-- A run that prints some lines and then fails.  An unknown command is answered with the usage. -/
def failure (lines : List OutputLine) (error : CommandError) : ProgramResult :=
  match error with
  | .unknownCommand _ => ⟨2, lines ++ [.err error.message] ++ Report.usage.map .out⟩
  | _ => ⟨1, lines ++ [.err ("Error: " ++ error.message)]⟩

/-- The run of a computation that yields lines. -/
def ofLines : Except CommandError (List OutputLine) → ProgramResult
  | .ok lines => success lines
  | .error error => failure [] error

end ProgramResult

namespace Command

/-- What reading the file at a path gives. -/
abbrev Files := String → Except FileError String

/-- The job list of a file. -/
def readJobs (files : Files) (path : String) : Except CommandError (List JobEntry) :=
  match files path with
  | .error error => .error (.unreadableJobs path error)
  | .ok text =>
      match JobEntry.readList? text with
      | none => .error (.malformedJobs path)
      | some entries => .ok entries

/-- The graph of the job list of a file after it was laid out. -/
def loadGraph (files : Files) (path : String) (options : LayoutOptions) :
    Except CommandError (Graph Job × LayeringReport) := do
  let loaded := (Workflow.new none options).load (← readJobs files path)
  match loaded.answer with
  | .error error => .error (.workflow error)
  | .ok report => .ok (loaded.state.graph, report)

/-- Prints the layers and the matrix of a job list. -/
def runLayout (files : Files) (path : String) (options : LayoutOptions) :
    Except CommandError (List OutputLine) := do
  let (g, report) ← loadGraph files path options
  .ok ((Report.layout g report).map .out)

/-- Prints the snapshot of a job list. -/
def runSnapshot (files : Files) (path : String) (options : LayoutOptions) :
    Except CommandError (List OutputLine) := do
  let (g, _) ← loadGraph files path options
  .ok [.out (Snapshot.ofGraph Job.payload g (some .rank)).indentedText]

/-! ## Replay -/

/-- The lines for the events that a poll rejected. -/
def rejections : PollOutcome → List OutputLine
  | .polled report => report.errors.map fun rejected => .err (Report.rejectionLine rejected)
  | .failed | .complete => []

/-- Plays a recording: one line for each change, then one for each job. -/
def replayLines (recording : Recording) : Except CommandError (List OutputLine) :=
  let started := (Poller.new Recording.client recording Settings.default).replay
  match started.answer with
  | .error error => .error (.workflow error)
  | .ok _ =>
      let heading := "Replaying " ++ toString recording.events.length ++ " event(s) over " ++
        toString started.state.workflow.jobKeys.length ++ " job(s)"
      let played := started.state.playOut
      .ok (started.notices.filterMap Report.noticeLine? ++ [.out heading] ++
        played.notices.filterMap Report.noticeLine? ++ played.answer.flatMap rejections ++
        [.out ""] ++ played.state.workflow.jobs.map fun job => .out (Report.jobLine job))

/-- Plays the recording of two files. -/
def runReplay (files : Files) (jobsPath eventsPath : String) :
    Except CommandError (List OutputLine) :=
  match Recording.ofFiles (files jobsPath) (some (files eventsPath)) with
  | .error error => .error (.recording jobsPath eventsPath error)
  | .ok recording => replayLines recording

/-! ## Watch -/

/-- The settings of a file, or the default ones. -/
def readSettings (files : Files) : Option String → Except CommandError Settings
  | none => .ok .default
  | some path =>
      match Settings.ofFile path (files path) with
      | .error error => .error (.settings path error)
      | .ok settings => .ok settings

/-- Why no server can be asked. -/
def offline : String := "no connection to a server"

/-- Watches the workflow of a server.  The program has no connection, so loading the jobs fails. -/
def watchLines (settings : Settings) : ProgramResult :=
  let heading := "Watching " ++ baseUrl settings.serverUrl ++ " (" ++
    settings.workflowId.getD "default workflow" ++ ")"
  let started :=
    (Poller.new (Client.unreachable settings.serverUrl offline) () settings).jumpToEnd
  let lines := .out heading :: started.notices.filterMap Report.noticeLine?
  match started.answer with
  | .error error => .failure lines (.unloadable settings.serverUrl error)
  | .ok _ => .success lines

/-- Watches a server with the settings of a file. -/
def runWatch (files : Files) (settingsPath : Option String) : ProgramResult :=
  match readSettings files settingsPath with
  | .error error => .failure [] error
  | .ok settings => watchLines settings

/-! ## All commands -/

/-- Runs a command. -/
def run (files : Files) : Command → ProgramResult
  | .help => .success (Report.usage.map .out)
  | .version => .success [.out (Report.programName ++ " " ++ Report.programVersion)]
  | .layout path options => .ofLines (runLayout files path options)
  | .snapshot path options => .ofLines (runSnapshot files path options)
  | .replay jobsPath eventsPath => .ofLines (runReplay files jobsPath eventsPath)
  | .watch settingsPath => runWatch files settingsPath

/-- Runs the command of the arguments. -/
def runArguments (files : Files) (arguments : List String) : ProgramResult :=
  match read arguments with
  | .error error => .failure [] error
  | .ok command => run files command

end Command

end JobGraph
