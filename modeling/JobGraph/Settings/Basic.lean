import JobGraph.Error
import JobGraph.Graph.Layout
import JobGraph.Text.Blank

/-!
# Settings

How a server is talked to and how its workflow is laid out.  Every setting has a default, and some
values are refused.
-/

namespace JobGraph

/-- The settings.  Times are in milliseconds. -/
structure Settings where
  serverUrl : String
  /-- The workflow to watch, where the server has several. -/
  workflowId : Option String
  pollInterval : Nat
  /-- How many job events a poll may apply; none means all. -/
  maxEventsPerPoll : Option Nat
  /-- How many polls in a row may fail. -/
  maxClientFailures : Nat
  requestTimeout : Nat
  layout : LayoutOptions
  deriving DecidableEq, Repr

namespace Settings

/-- The settings that hold where nothing else is said. -/
def default : Settings :=
  { serverUrl := "http://localhost:8080"
    workflowId := none
    pollInterval := 1000
    maxEventsPerPoll := none
    maxClientFailures := 10
    requestTimeout := 10000
    layout := .default }

instance : Inhabited Settings := ⟨default⟩

/-- The settings with a poll interval in microseconds, cut to whole milliseconds. -/
def withPollMicroseconds (settings : Settings) (microseconds : Nat) : Settings :=
  { settings with pollInterval := microseconds / 1000 }

/-! ## Validity -/

/-- The server address is blank. -/
def emptyServerUrl : SettingsError :=
  .invalid "server_url" "must not be empty"

/-- The server address names no protocol, or another one. -/
def foreignServerUrl : SettingsError :=
  .invalid "server_url" "must start with http:// or https://"

/-- Polls would follow each other without a pause. -/
def zeroPollInterval : SettingsError :=
  .invalid "poll_interval_ms" "must be greater than zero"

/-- Polls would never apply an event. -/
def zeroMaxEvents : SettingsError :=
  .invalid "max_events_per_poll" "must be greater than zero; omit for no limit"

/-- Whether an address is one of the web. -/
def isWebAddress (url : String) : Bool :=
  "http://".toList.isPrefixOf url.toList || "https://".toList.isPrefixOf url.toList

/-- The first fault of the settings, in the order of their fields. -/
def fault? (settings : Settings) : Option SettingsError :=
  if (Text.trim settings.serverUrl.toList).isEmpty then some emptyServerUrl
  else if !isWebAddress settings.serverUrl then some foreignServerUrl
  else if settings.pollInterval = 0 then some zeroPollInterval
  else if settings.maxEventsPerPoll = some 0 then some zeroMaxEvents
  else none

/-- The settings themselves when nothing is wrong with them. -/
def checked (settings : Settings) : Except SettingsError Settings :=
  match settings.fault? with
  | some error => .error error
  | none => .ok settings

/-- The default settings have no fault. -/
theorem fault?_default : fault? default = none := by
  decide

end Settings

end JobGraph
