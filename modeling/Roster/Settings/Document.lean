import Roster.Json.Basic
import Roster.Settings.Basic

/-!
Settings as a JSON document, and the document in which a server says what it offers.
-/

namespace Roster

def textOrNull (s : Option String) : Json :=
  match s with
  | some s => .str s
  | none => .null

def ServerSettings.toJson (s : ServerSettings) : Json :=
  Json.ofMembers
    [ ("host", .str s.host.toText),
      ("port", Json.ofNat s.port),
      ("body_limit_bytes", Json.ofNat s.bodyLimit) ]

def LogSettings.toJson (s : LogSettings) : Json :=
  Json.ofMembers
    [ ("level", .str s.level.name),
      ("format", .str s.format.name),
      ("timestamps", .bool s.timestamps),
      ("file_line", .bool s.fileLine),
      ("include_spans", .bool s.includeSpans),
      ("filter", textOrNull s.filter) ]

/-- A feature that is on or off. -/
def toggleJson (name : String) (on : Bool) : Json :=
  Json.ofMembers [(name, .bool on)]

namespace ProtocolSettings

def toJson (p : ProtocolSettings) : Json :=
  Json.ofMembers
    [ ("max_results", Json.ofNat p.maxResults),
      ("default_count", Json.ofNat p.defaultCount),
      ("enterprise_extension", Json.ofMembers
        [("enabled", .bool p.enterprise.enabled), ("required", .bool p.enterprise.required)]),
      ("legacy_v1", .bool p.legacy),
      ("patch", toggleJson "enabled" p.patch),
      ("filter", toggleJson "enabled" p.filter),
      ("sort", toggleJson "enabled" p.sort),
      ("documentation_uri", textOrNull p.documentationUri) ]

/-- What the server offers. -/
def providerJson (p : ProtocolSettings) : Json :=
  Json.ofPresent
    [ ("schemas", some (.arr [.str Urn.serviceProviderConfig])),
      ("documentationUri", p.documentationUri.map .str),
      ("patch", some (toggleJson "supported" p.patch)),
      ("bulk", some (Json.ofMembers
        [("supported", .bool false), ("maxOperations", Json.ofNat 0),
          ("maxPayloadSize", Json.ofNat 0)])),
      ("filter", some (Json.ofMembers
        [("supported", .bool p.filter), ("maxResults", Json.ofNat p.maxResults)])),
      ("changePassword", some (toggleJson "supported" false)),
      ("sort", some (toggleJson "supported" p.sort)),
      ("etag", some (toggleJson "supported" true)),
      ("authenticationSchemes", some (.arr [])) ]

end ProtocolSettings

def Settings.toJson (s : Settings) : Json :=
  Json.ofMembers
    [ ("server", s.server.toJson),
      ("observability", Json.ofMembers [("logging", s.logging.toJson)]),
      ("scim", s.protocol.toJson) ]

end Roster
