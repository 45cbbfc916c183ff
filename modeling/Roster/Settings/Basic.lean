import Roster.Schema.Registry
import Roster.Settings.Address

/-!
The settings of a server, their defaults, and what makes them consistent.
-/

namespace Roster

inductive LogLevel where
  | trace
  | debug
  | info
  | warn
  | error
deriving DecidableEq, Repr, Inhabited

def LogLevel.name : LogLevel → String
  | .trace => "trace"
  | .debug => "debug"
  | .info => "info"
  | .warn => "warn"
  | .error => "error"

inductive LogFormat where
  | pretty
  | compact
  | json
deriving DecidableEq, Repr, Inhabited

def LogFormat.name : LogFormat → String
  | .pretty => "pretty"
  | .compact => "compact"
  | .json => "json"

structure ServerSettings where
  host : Address
  port : Nat
  bodyLimit : Nat
deriving DecidableEq, Repr, Inhabited

structure LogSettings where
  level : LogLevel
  format : LogFormat
  timestamps : Bool
  fileLine : Bool
  includeSpans : Bool
  filter : Option String
deriving DecidableEq, Repr, Inhabited

/-- Whether the Enterprise User extension is known, and whether every user must declare it. -/
structure ExtensionSettings where
  enabled : Bool
  required : Bool
deriving DecidableEq, Repr, Inhabited

/-- What of the protocol is offered, and the sizes of pages. -/
structure ProtocolSettings where
  maxResults : Nat
  defaultCount : Nat
  enterprise : ExtensionSettings
  legacy : Bool
  patch : Bool
  filter : Bool
  sort : Bool
  documentationUri : Option String
deriving DecidableEq, Repr, Inhabited

structure Settings where
  server : ServerSettings
  logging : LogSettings
  protocol : ProtocolSettings
deriving DecidableEq, Repr, Inhabited

def ServerSettings.standard : ServerSettings := ⟨.v4 0 0 0 0, 8080, 1024 * 1024⟩

def LogSettings.standard : LogSettings := ⟨.info, .compact, true, false, true, none⟩

def ExtensionSettings.standard : ExtensionSettings := ⟨true, false⟩

def ProtocolSettings.standard : ProtocolSettings :=
  ⟨200, 100, .standard, false, true, true, true, none⟩

/-- What is wrong with settings that can be read. -/
inductive SettingsFault where
  | portZero
  | bodyLimitZero
  | maxResultsZero
  | countAboveMax (count max : Nat)
  | requiredButDisabled
deriving DecidableEq, Repr, Inhabited

def SettingsFault.message : SettingsFault → String
  | .portZero => "server.port must be non-zero"
  | .bodyLimitZero => "server.body_limit_bytes must be non-zero"
  | .maxResultsZero => "scim.max_results must be at least 1"
  | .countAboveMax count max =>
    "scim.default_count (" ++ toString count ++ ") exceeds scim.max_results (" ++ toString max ++ ")"
  | .requiredButDisabled => "scim.enterprise_extension.required needs enabled = true"

namespace ProtocolSettings

/-- The first fault of the settings. -/
def fault? (p : ProtocolSettings) : Option SettingsFault :=
  if p.maxResults = 0 then some .maxResultsZero
  else if p.maxResults < p.defaultCount then some (.countAboveMax p.defaultCount p.maxResults)
  else if p.enterprise.required && !p.enterprise.enabled then some .requiredButDisabled
  else none

/-- The schemas that the settings make known. -/
def registry (p : ProtocolSettings) : Registry :=
  if p.enterprise.enabled then
    Registry.core.extend ⟨.user, Schema.enterpriseUser, p.enterprise.required⟩
  else Registry.core

end ProtocolSettings

/-- The first fault of the settings. -/
def Settings.fault? (s : Settings) : Option SettingsFault :=
  if s.server.port = 0 then some .portZero
  else if s.server.bodyLimit = 0 then some .bodyLimitZero
  else s.protocol.fault?

end Roster
