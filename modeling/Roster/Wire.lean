import Roster.ErrorResponse
import Roster.Text.Ascii

/-!
Resources and messages in the two versions of the protocol. Resources are kept in the form of
version 2; version 1 has other URNs, one for users and groups alike, and no resource type.
-/

namespace Roster

inductive ProtocolVersion where
  | v1
  | v2
deriving DecidableEq, Repr, Inhabited

namespace ProtocolVersion

/-- The path under which the version is served. -/
def root : ProtocolVersion → String
  | .v1 => "/scim/v1"
  | .v2 => "/scim/v2"

/-- URNs of version 2 with those of version 1. -/
def urns : List (String × String) :=
  [ (Urn.user, Urn.legacyCore),
    (Urn.group, Urn.legacyCore),
    (Urn.enterpriseUser, Urn.legacyEnterprise) ]

/-- The URN of version 1 for one of version 2. -/
def toLegacy? (urn : String) : Option String :=
  (urns.find? fun p => sameName p.1 urn).map (·.2)

/-- The first URN of version 2 for one of version 1. -/
def ofLegacy? (urn : String) : Option String :=
  (urns.find? fun p => sameName p.2 urn).map (·.1)

/-- A declared URN in version 1. -/
def legacySchema (v : Json) : Json :=
  match v with
  | .str urn => .str ((toLegacy? urn).getD urn)
  | v => v

/-- A member of a resource in version 1. -/
def legacyMember (key : String) (v : Json) : String × Json :=
  if key = "schemas" then
    let declared := ((v.items?.getD []).map legacySchema).foldl
      (fun kept v => if kept.any (·.same v) then kept else kept ++ [v]) []
    (key, .arr declared)
  else if key = "meta" then
    match v with
    | .obj members => (key, .obj (Members.erase members "resourceType"))
    | v => (key, v)
  else ((toLegacy? key).getD key, v)

/-- A declared URN of version 1 in version 2. The core URN stands for `core`. -/
def currentSchema (core : String) (v : Json) : Json :=
  match v with
  | .str urn => .str (if sameName urn Urn.legacyCore then core else (ofLegacy? urn).getD urn)
  | v => v

/-- A member of a body of version 1 in version 2. -/
def currentMember (core : String) (key : String) (v : Json) : String × Json :=
  if key = "schemas" then (key, .arr ((v.items?.getD []).map (currentSchema core)))
  else if sameName key Urn.legacyEnterprise then (Urn.enterpriseUser, v)
  else (key, v)

/-- A resource in the form of the version. -/
def encode (version : ProtocolVersion) (resource : Json) : Json :=
  match version, resource with
  | .v1, .obj members => Json.ofMembers (members.map fun m => legacyMember m.1 m.2)
  | _, v => v

/-- A body in the form that resources are kept in; `core` is the schema of its kind. -/
def decode (version : ProtocolVersion) (core : String) (body : Json) : Json :=
  match version, body with
  | .v1, .obj members => Json.ofMembers (members.map fun m => currentMember core m.1 m.2)
  | _, v => v

/-- A page of encoded resources, out of `total`, the first of which has the index `start`. -/
def encodeList (version : ProtocolVersion) (resources : List Json) (total start : Nat) : Json :=
  let schema := match version with
    | .v1 => Urn.legacyCore
    | .v2 => Urn.listResponse
  Json.ofMembers
    [ ("schemas", .arr [.str schema]),
      ("totalResults", Json.ofNat total),
      ("itemsPerPage", Json.ofNat resources.length),
      ("startIndex", Json.ofNat start),
      ("Resources", .arr resources) ]

def encodeError (version : ProtocolVersion) (e : ErrorResponse) : Json :=
  match version with
  | .v1 => Json.ofMembers
      [ ("Errors", .arr [Json.ofMembers
          [("description", .str e.detail), ("code", .str (toString e.status))]]) ]
  | .v2 => Json.ofPresent
      [ ("schemas", some (.arr [.str Urn.error])),
        ("status", some (.str (toString e.status))),
        ("scimType", e.type.map fun t => .str t.name),
        ("detail", some (.str e.detail)) ]

end ProtocolVersion

end Roster
