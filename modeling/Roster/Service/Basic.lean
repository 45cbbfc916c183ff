import Roster.Digest
import Roster.Json.Printer
import Roster.Meta
import Roster.Service.Task
import Roster.Settings.Basic

/-!
What a server knows of resources beyond their attributes: their versions, the memberships that
groups state and users show, and that user names are unique.
-/

namespace Roster

/-- What a server knows and offers. `version` is the version tag of a resource's content. -/
structure Service where
  registry : Registry
  protocol : ProtocolSettings
  version : Json → String

namespace Service

/-- The digest of a content's text. -/
def contentTag (content : Json) : String :=
  "W/\"" ++ Digest.sha256 content.toText ++ "\""

/-- The service of settings. -/
def ofSettings (p : ProtocolSettings) : Service := ⟨p.registry, p, contentTag⟩

/-! ### Versions -/

/-- The version of a resource, which leaves its metadata out. -/
def versionOf (s : Service) (resource : Json) : String :=
  s.version (resource.without "meta")

/-- The version that a resource says it has. -/
def statedVersion? (resource : Json) : Option String :=
  ((resource.get? "meta").bind fun m => m.get? "version").bind Json.string?

/-- Writes members into the metadata of a resource, if it has any. -/
def putMeta (resource : Json) (members : List (String × Json)) : Json :=
  match resource.get? "meta" with
  | some (.obj held) => resource.put "meta" (.obj (Members.merge held members))
  | _ => resource

/-- Stores a resource in place of an existing one, unless it is of the same version. -/
def persist (s : Service) (kind : Kind) (id : String) (existing updated : Json) (now : Instant) :
    Task Json :=
  let version := s.versionOf updated
  if statedVersion? existing = some version then pure existing
  else Task.update kind id (putMeta updated
    [("lastModified", .str now.toText), ("version", .str version)])

/-! ### Memberships -/

/-- The identifier that a member of a group names. -/
def memberId? (v : Json) : Option String :=
  (v.member? "value").bind Json.string?

/-- The location of a resource. -/
def location (baseUrl : String) (kind : Kind) (id : String) : String :=
  baseUrl ++ kind.endpoint ++ "/" ++ id

/-- Whether a group has a member of this identifier. -/
def hasMember (id : String) (group : Json) : Bool :=
  ((group.member? "members").bind Json.items?).any fun members =>
    members.any fun m => memberId? m == some id

/-- What a user shows of a group. -/
def membership? (baseUrl : String) (group : Json) : Option Json :=
  group.identifier?.map fun id => Json.ofPresent
    [ ("value", some (.str id)),
      ("$ref", some (.str (location baseUrl .group id))),
      ("type", some (.str "direct")),
      ("display", group.member? "displayName") ]

/-- A stored resource as it is shown: a user with the groups it is in. -/
def decorate (kind : Kind) (resource : Json) (baseUrl : String) : Task Json :=
  match kind, resource.identifier? with
  | .user, some id => do
    let groups ← Task.list .group
    let memberships := (groups.filter (hasMember id)).filterMap (membership? baseUrl)
    if memberships.isEmpty then pure resource
    else pure (resource.put "groups" (.arr memberships))
  | _, _ => pure resource

/-- The members of an object with one more, unless it has that name. -/
def putNew (members : Members Json) (key : String) (value : Json) : Members Json :=
  if (members.get? key).isSome then members else members.insert key value

/-- The resource that a member names, a user first. -/
def findMember (id : String) : Task (Kind × Json) := do
  match ← Task.get .user id with
  | some user => pure (.user, user)
  | none =>
    match ← Task.get .group id with
    | some group => pure (.group, group)
    | none => throw (.invalidValue (.unknownMember id))

/-- A member with its type, location and name filled in. -/
def completeMember (baseUrl : String) (entry : Json) (id : String) (kind : Kind)
    (resource : Json) : Json :=
  let given : Members Json := (entry.members?).getD []
  let members := given.insert "value" (.str id)
  let members := putNew members "type" (.str kind.name)
  let members := putNew members "$ref" (.str (location baseUrl kind id))
  match (resource.member? "displayName").orElse fun _ => resource.member? "userName" with
  | some display => .obj (putNew members "display" display)
  | none => .obj members

/-- Completes members one by one, behind those that are done. Repeated ones are dropped. -/
def resolveEntries (baseUrl : String) : List Json → List Json → Task (List Json)
  | done, [] => pure done
  | done, entry :: rest =>
    match memberId? entry with
    | none => throw (.invalidValue .memberWithoutValue)
    | some id =>
      if done.any fun m => memberId? m == some id then resolveEntries baseUrl done rest
      else do
        let (kind, resource) ← findMember id
        resolveEntries baseUrl (done ++ [completeMember baseUrl entry id kind resource]) rest

/-- A group whose members all exist and are complete. -/
def resolveMembers (kind : Kind) (resource : Json) (baseUrl : String) : Task Json :=
  match kind, resource.get? "members" with
  | .group, some (.arr entries) => do
    let members ← resolveEntries baseUrl [] entries
    pure (resource.put "members" (.arr members))
  | _, _ => pure resource

/-- A group without a member; none when it has no such member. -/
def withoutMember? (id : String) (group : Json) : Option Json :=
  match group.get? "members" with
  | some (.arr members) =>
    let kept := members.filter fun m => memberId? m != some id
    if kept.length = members.length then none
    else if kept.isEmpty then some (group.without "members")
    else some (group.put "members" (.arr kept))
  | _ => none

/-! ### User names -/

/-- Fails when another user has the name of this one. -/
def checkUnique (kind : Kind) (resource : Json) (apartFrom : Option String) : Task Unit :=
  match kind, (resource.member? "userName").bind Json.string? with
  | .user, some name => do
    match ← Task.find ⟨.user, "userName", name, false, apartFrom⟩ with
    | some _ => throw (.userNameTaken name)
    | none => pure ()
  | _, _ => pure ()

end Service

end Roster
