import JobGraph.Settings.Basic
import JobGraph.Toml.Document
import JobGraph.Toml.Reader

/-!
# Settings in JSON and TOML

Settings are a record, with the layout options as a record in it.  Both formats name the fields
alike; what an array may stand for, and how a constant is spelled, is left to the format.
-/

namespace JobGraph

open Json (Document)

/-- How a format spells records and constants. -/
structure RecordFormat where
  /-- The fields of a record in the order of the names. -/
  fields? : List String → Document → Option (List (Option Document))
  /-- The name of a constant. -/
  constant? : Document → Option String

/-- Records in JSON. -/
def RecordFormat.json : RecordFormat :=
  ⟨Document.fields?, Document.constant?⟩

/-- Records in TOML. -/
def RecordFormat.toml : RecordFormat :=
  ⟨Toml.fields?, Toml.constant?⟩

/-! ## Layout options -/

/-- The name of a policy. -/
def CyclePolicy.name : CyclePolicy → String
  | .lenient => "lenient"
  | .strict => "strict"

/-- The policy of a name. -/
def CyclePolicy.ofName? : String → Option CyclePolicy
  | "lenient" => some .lenient
  | "strict" => some .strict
  | _ => none

/-- Reads the name of a policy. -/
def CyclePolicy.decode? (format : RecordFormat) (document : Document) : Option CyclePolicy :=
  (format.constant? document).bind ofName?

/-- The names of the layout options. -/
def LayoutOptions.fieldNames : List String :=
  ["cycle_policy", "add_pseudo_nodes", "order_iterations"]

/-- Layout options as an object. -/
def LayoutOptions.toJson (options : LayoutOptions) : Json :=
  .object
    [("cycle_policy", .string options.cyclePolicy.name),
     ("add_pseudo_nodes", .bool options.routed),
     ("order_iterations", .ofNat options.sweeps)]

/-- Reads layout options; those that are missing have their defaults. -/
def LayoutOptions.decode? (format : RecordFormat) (document : Document) :
    Option LayoutOptions := do
  match ← format.fields? fieldNames document with
  | [policy, routed, sweeps] =>
      some
        { cyclePolicy :=
            ← Document.withDefault default.cyclePolicy (CyclePolicy.decode? format) policy
          routed := ← Document.withDefault default.routed Document.bool? routed
          sweeps := ← Document.withDefault default.sweeps Document.natural64? sweeps }
  | _ => none

/-! ## Settings -/

namespace Settings

/-- The names of the settings. -/
def fieldNames : List String :=
  ["server_url", "workflow_id", "poll_interval_ms", "max_events_per_poll", "max_client_failures",
   "request_timeout_ms", "graph"]

/-- Settings as an object. -/
def toJson (settings : Settings) : Json :=
  .object
    [("server_url", .string settings.serverUrl),
     ("workflow_id", .orNull Json.string settings.workflowId),
     ("poll_interval_ms", .ofNat settings.pollInterval),
     ("max_events_per_poll", .orNull Json.ofNat settings.maxEventsPerPoll),
     ("max_client_failures", .ofNat settings.maxClientFailures),
     ("request_timeout_ms", .ofNat settings.requestTimeout),
     ("graph", settings.layout.toJson)]

/-- Reads settings; those that are missing have their defaults. -/
def decode? (format : RecordFormat) (document : Document) : Option Settings := do
  match ← format.fields? fieldNames document with
  | [serverUrl, workflowId, pollInterval, maxEvents, maxFailures, timeout, layout] =>
      some
        { serverUrl := ← Document.withDefault default.serverUrl Document.text? serverUrl
          workflowId := ← Document.nullable Document.text? workflowId
          pollInterval :=
            ← Document.withDefault default.pollInterval Document.natural64? pollInterval
          maxEventsPerPoll := ← Document.nullable Document.natural64? maxEvents
          maxClientFailures :=
            ← Document.withDefault default.maxClientFailures Document.natural32? maxFailures
          requestTimeout :=
            ← Document.withDefault default.requestTimeout Document.natural64? timeout
          layout := ← Document.withDefault default.layout (LayoutOptions.decode? format) layout }
  | _ => none

/-- The settings of a TOML text. -/
def ofToml (text : String) : Except SettingsError Settings :=
  match (Toml.read? text).bind fun members =>
      decode? .toml (.object (Toml.memberDocuments members)) with
  | none => .error .malformed
  | some settings => settings.checked

/-- The settings of a TOML file at a path. -/
def ofFile (path : String) (file : Except FileError String) : Except SettingsError Settings :=
  match file with
  | .error error => .error (.unreadable path error)
  | .ok text => ofToml text

end Settings

end JobGraph
