import Roster.Settings.Basic
import Roster.Settings.Environment
import Roster.Toml.Parser
import Roster.Width

/-!
Reading settings. References to variables are replaced first, what a table or list leaves out has
its default, and names that no setting has are refused.
-/

namespace Roster

/-- A field of a record, with its default. -/
def setting? {α : Type} (ms : Members Toml) (name : String) (default : α)
    (read : Toml → Option α) : Option α :=
  match Members.get? ms name with
  | none => some default
  | some v => read v

def optionalText? (v : Toml) : Option (Option String) :=
  v.text?.map some

def LogLevel.ofToml? : Toml → Option LogLevel :=
  Toml.word? <| [LogLevel.trace, .debug, .info, .warn, .error].map fun l => (l.name, l)

def LogFormat.ofToml? : Toml → Option LogFormat :=
  Toml.word? <| [LogFormat.pretty, .compact, .json].map fun f => (f.name, f)

def ServerSettings.ofToml? (v : Toml) : Option ServerSettings := do
  let ms ← v.fields? ["host", "port", "body_limit_bytes"]
  let default := ServerSettings.standard
  let host ← setting? ms "host" default.host fun v => v.text?.bind Address.ofText?
  let port ← setting? ms "port" default.port (Toml.natural? (twoTo 16 - 1))
  let bodyLimit ← setting? ms "body_limit_bytes" default.bodyLimit (Toml.natural? (twoTo 64 - 1))
  some ⟨host, port, bodyLimit⟩

def LogSettings.ofToml? (v : Toml) : Option LogSettings := do
  let ms ← v.fields? ["level", "format", "timestamps", "file_line", "include_spans", "filter"]
  let default := LogSettings.standard
  let level ← setting? ms "level" default.level LogLevel.ofToml?
  let format ← setting? ms "format" default.format LogFormat.ofToml?
  let timestamps ← setting? ms "timestamps" default.timestamps Toml.bool?
  let fileLine ← setting? ms "file_line" default.fileLine Toml.bool?
  let includeSpans ← setting? ms "include_spans" default.includeSpans Toml.bool?
  let filter ← setting? ms "filter" default.filter optionalText?
  some ⟨level, format, timestamps, fileLine, includeSpans, filter⟩

def ExtensionSettings.ofToml? (v : Toml) : Option ExtensionSettings := do
  let ms ← v.fields? ["enabled", "required"]
  let enabled ← setting? ms "enabled" true Toml.bool?
  let required ← setting? ms "required" false Toml.bool?
  some ⟨enabled, required⟩

/-- A record that switches a feature on or off. -/
def toggle? (v : Toml) : Option Bool :=
  (v.fields? ["enabled"]).bind fun ms => setting? ms "enabled" true Toml.bool?

def ProtocolSettings.ofToml? (v : Toml) : Option ProtocolSettings := do
  let ms ← v.fields? ["max_results", "default_count", "enterprise_extension", "legacy_v1", "patch",
    "filter", "sort", "documentation_uri"]
  let default := ProtocolSettings.standard
  let maxResults ← setting? ms "max_results" default.maxResults (Toml.natural? (twoTo 32 - 1))
  let defaultCount ← setting? ms "default_count" default.defaultCount (Toml.natural? (twoTo 32 - 1))
  let enterprise ← setting? ms "enterprise_extension" default.enterprise ExtensionSettings.ofToml?
  let legacy ← setting? ms "legacy_v1" default.legacy Toml.bool?
  let patch ← setting? ms "patch" default.patch toggle?
  let filter ← setting? ms "filter" default.filter toggle?
  let sort ← setting? ms "sort" default.sort toggle?
  let documentationUri ← setting? ms "documentation_uri" default.documentationUri optionalText?
  some ⟨maxResults, defaultCount, enterprise, legacy, patch, filter, sort, documentationUri⟩

def Settings.ofToml? (v : Toml) : Option Settings := do
  let ms ← v.fields? ["server", "observability", "scim"]
  let server ← setting? ms "server" .standard ServerSettings.ofToml?
  let logging ← setting? ms "observability" .standard fun v =>
    (v.fields? ["logging"]).bind fun ms => setting? ms "logging" .standard LogSettings.ofToml?
  let protocol ← setting? ms "scim" .standard ProtocolSettings.ofToml?
  some ⟨server, logging, protocol⟩

/-- Why a text gives no settings. -/
inductive SettingsError where
  | malformed
  | missingVariable (name : String)
  | invalid (fault : SettingsFault)
deriving DecidableEq, Repr, Inhabited

def SettingsError.message : SettingsError → String
  | .malformed => "Failed to parse config"
  | .missingVariable name => "Environment variable not found: " ++ name
  | .invalid fault => "Configuration validation error: " ++ fault.message

/-- The settings of a text in an environment. -/
def Settings.parse (env : Environment) (text : String) : Except SettingsError Settings :=
  match expandText env text with
  | .error name => .error (.missingVariable name)
  | .ok text =>
    match (Toml.parse? text).bind Settings.ofToml? with
    | none => .error .malformed
    | some s =>
      match s.fault? with
      | some fault => .error (.invalid fault)
      | none => .ok s

/-- The settings that a new server starts with, line by line. -/
def Settings.starterLines : List String :=
  [ "# scimgate configuration",
    "",
    "[server]",
    "host = \"0.0.0.0\"",
    "port = 8080",
    "body_limit_bytes = 1048576",
    "",
    "[observability.logging]",
    "level = \"info\"",
    "format = \"compact\"",
    "# filter = \"scimgate=debug,tower_http=debug\"",
    "",
    "[scim]",
    "max_results = 200",
    "default_count = 100",
    "legacy_v1 = false",
    "",
    "[scim.enterprise_extension]",
    "enabled = true",
    "required = false",
    "",
    "[scim.patch]",
    "enabled = true",
    "",
    "[scim.filter]",
    "enabled = true",
    "",
    "[scim.sort]",
    "enabled = true" ]

def Settings.starterText : String :=
  String.join (starterLines.map (· ++ "\n"))

end Roster
