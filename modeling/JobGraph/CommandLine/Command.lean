import JobGraph.Decimal.Digits
import JobGraph.Error
import JobGraph.Graph.Layout

/-!
# Commands

What the arguments of the program ask for, and why a command fails.
-/

namespace JobGraph

/-- What the program is asked to do. -/
inductive Command where
  | help
  | version
  /-- Lay out a job list and print its layers and its matrix. -/
  | layout (path : String) (options : LayoutOptions)
  /-- Lay out a job list and print its snapshot. -/
  | snapshot (path : String) (options : LayoutOptions)
  /-- Play a recording. -/
  | replay (jobsPath eventsPath : String)
  /-- Watch a server, with the settings of a file if one is given. -/
  | watch (settingsPath : Option String)
  deriving DecidableEq, Repr

/-- Why a command fails. -/
inductive CommandError where
  | unknownCommand (name : String)
  | missingJobsFile
  | missingRecording
  | missingSweeps
  | invalidSweeps (value : String) (error : Decimal.IntegerError)
  | unknownOption (name : String)
  | unreadableJobs (path : String) (error : FileError)
  | malformedJobs (path : String)
  | recording (jobsPath eventsPath : String) (error : ClientError)
  | settings (path : String) (error : SettingsError)
  | workflow (error : WorkflowError)
  /-- The jobs of a server cannot be loaded. -/
  | unloadable (serverUrl : String) (error : WorkflowError)
  deriving DecidableEq, Repr

namespace CommandError

/-- The text of an error of a client, and after it that of the file error behind it. -/
def clientText (error : ClientError) : String :=
  match error with
  | .file cause => error.message ++ ": " ++ cause.message
  | _ => error.message

/-- The text of the error. -/
def message : CommandError → String
  | .unknownCommand name => "Unknown command: " ++ name
  | .missingJobsFile => "please specify a jobs file"
  | .missingRecording => "please specify jobs and events files"
  | .missingSweeps => "--order requires a value"
  | .invalidSweeps value error => "invalid --order value '" ++ value ++ "': " ++ error.message
  | .unknownOption name => "unknown option '" ++ name ++ "'"
  | .unreadableJobs path error => "failed to read " ++ path ++ ": " ++ error.message
  | .malformedJobs path => "failed to parse jobs from " ++ path
  | .recording jobsPath eventsPath error =>
      "failed to load recording " ++ jobsPath ++ " / " ++ eventsPath ++ ": " ++ clientText error
  | .settings path error => "failed to load config " ++ path ++ ": " ++ error.message
  | .workflow error => error.message
  | .unloadable serverUrl error =>
      "failed to load jobs from " ++ serverUrl ++ ": " ++ error.message

end CommandError

namespace Command

/-! ## Reading arguments -/

/-- The layout options that flags ask for, on top of those before them. -/
def readFlags (options : LayoutOptions) : List String → Except CommandError LayoutOptions
  | [] => .ok options
  | "--strict" :: rest => readFlags { options with cyclePolicy := .strict } rest
  | "--no-pseudo" :: rest => readFlags { options with routed := false } rest
  | ["--order"] => .error .missingSweeps
  | "--order" :: value :: rest =>
      match Decimal.readNat (UInt64.size - 1) value.toList with
      | .ok sweeps => readFlags { options with sweeps } rest
      | .error error => .error (.invalidSweeps value error)
  | name :: _ => .error (.unknownOption name)

/-- The job list and the layout options that arguments name. -/
def readLayout (make : String → LayoutOptions → Command) :
    List String → Except CommandError Command
  | [] => .error .missingJobsFile
  | path :: flags => (readFlags .default flags).map (make path)

/-- The command of the arguments.  No arguments ask for help. -/
def read : List String → Except CommandError Command
  | [] => .ok .help
  | "layout" :: rest => readLayout .layout rest
  | "json" :: rest => readLayout .snapshot rest
  | "replay" :: jobsPath :: eventsPath :: _ => .ok (.replay jobsPath eventsPath)
  | "replay" :: _ => .error .missingRecording
  | "watch" :: rest => .ok (.watch rest.head?)
  | "help" :: _ | "--help" :: _ | "-h" :: _ => .ok .help
  | "version" :: _ | "--version" :: _ => .ok .version
  | name :: _ => .error (.unknownCommand name)

/-- The files that a command reads. -/
def paths : Command → List String
  | .help | .version => []
  | .layout path _ | .snapshot path _ => [path]
  | .replay jobsPath eventsPath => [jobsPath, eventsPath]
  | .watch settingsPath => settingsPath.toList

end Command

end JobGraph
