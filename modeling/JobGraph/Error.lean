import JobGraph.File
import JobGraph.Graph.Error

/-!
# Errors

Why loading, monitoring and configuring a workflow fail, and the texts that say so.
-/

namespace JobGraph

/-- Why a client cannot fetch jobs or events. -/
inductive ClientError where
  | request (url reason : String)
  /-- The server answered with a status that is no success. -/
  | status (url : String) (code : Nat)
  | decode (url reason : String)
  | file (error : FileError)
  /-- A recording whose texts are no job list or no event list. -/
  | malformed
  deriving DecidableEq, Repr

namespace ClientError

/-- The text of the error. -/
def message : ClientError → String
  | .request url reason => "Request to " ++ url ++ " failed: " ++ reason
  | .status url code => "Request to " ++ url ++ " returned HTTP " ++ toString code
  | .decode url reason => "Failed to decode response from " ++ url ++ ": " ++ reason
  | .file error => "I/O error: " ++ error.message
  | .malformed => "Malformed data"

/-- The address that was asked, if any was. -/
def url? : ClientError → Option String
  | .request url _ | .status url _ | .decode url _ => some url
  | .file _ | .malformed => none

end ClientError

/-- Why jobs cannot be loaded or an event cannot be applied. -/
inductive WorkflowError where
  /-- No job has that name or id; `field` says which of the two was looked up. -/
  | jobNotFound (field reference : String)
  | missingJobReference
  | invalidEvent (reason : String)
  | unsupportedEventType (name : String)
  | graph (error : GraphError)
  | client (error : ClientError)
  deriving DecidableEq, Repr

namespace WorkflowError

/-- The event lacks its id, its kind or its payload. -/
def incompleteEvent : WorkflowError :=
  .invalidEvent "event requires id, type and payload"

/-- The payload of a progress event holds no percentage. -/
def missingProgress : WorkflowError :=
  .invalidEvent "progress payload has no workflowProgress"

/-- The payload of a job event holds no job. -/
def missingJobEntry : WorkflowError :=
  .invalidEvent "payload contains no job entry"

/-- The job in the payload of a job event cannot be read. -/
def malformedJob : WorkflowError :=
  .invalidEvent "malformed job"

/-- The text of the error. -/
def message : WorkflowError → String
  | .jobNotFound field reference => "Job with " ++ field ++ " '" ++ reference ++ "' not found"
  | .missingJobReference => "Job reference contains neither name nor id"
  | .invalidEvent reason => "Invalid event data: " ++ reason
  | .unsupportedEventType name => "Unsupported event type '" ++ name ++ "'"
  | .graph error => error.message
  | .client error => error.message

/-- Whether the error concerns a single event only and the workflow stays usable. -/
def isRecoverable : WorkflowError → Bool
  | .graph _ | .client _ => false
  | .jobNotFound _ _ | .missingJobReference | .invalidEvent _ | .unsupportedEventType _ => true

end WorkflowError

/-- Why settings cannot be taken. -/
inductive SettingsError where
  | unreadable (path : String) (error : FileError)
  /-- The text is no settings file. -/
  | malformed
  | invalid (field reason : String)
  deriving DecidableEq, Repr

/-- The text of the error. -/
def SettingsError.message : SettingsError → String
  | .unreadable path error => "Failed to read config file " ++ path ++ ": " ++ error.message
  | .malformed => "Failed to parse config"
  | .invalid field reason => "Invalid config value for '" ++ field ++ "': " ++ reason

/-- Any error of the library. -/
inductive AnyError where
  | graph (error : GraphError)
  | workflow (error : WorkflowError)
  | settings (error : SettingsError)
  | other (reason : String)
  deriving DecidableEq, Repr

/-- The text of the error, which says where it comes from. -/
def AnyError.message : AnyError → String
  | .graph error => "Graph error: " ++ error.message
  | .workflow error => "Workflow error: " ++ error.message
  | .settings error => "Configuration error: " ++ error.message
  | .other reason => reason

end JobGraph
