import Roster.Service.Basic
import Roster.Service.Build

/-!
The changes of resources. Each checks its input first and then does its work under a lock; fresh
identifiers and readings of the clock are given to it.
-/

namespace Roster

namespace Service

/-- Gives a new resource its identifier and metadata. -/
def stamp (s : Service) (kind : Kind) (resource : Json) (baseUrl id : String) (now : Instant) :
    Json :=
  let m := (Meta.createdAt kind.name now).withLocation (location baseUrl kind id)
  let resource := (resource.put "id" (.str id)).put "meta" m.toJson
  putMeta resource [("version", .str (s.versionOf resource))]

/-- Creates a resource from a body. -/
def create (s : Service) (kind : Kind) (body : Json) (baseUrl id : String) (now : Instant) :
    Change Json :=
  (s.registry.build kind body).map fun resource => do
    checkUnique kind resource none
    let resource ← resolveMembers kind resource baseUrl
    let stored ← Task.insert kind (s.stamp kind resource baseUrl id now)
    decorate kind stored baseUrl

/-- Takes over what the server has assigned to a resource. -/
def keepAssigned (existing updated : Json) : Json :=
  ["id", "meta"].foldl
    (fun v key =>
      match existing.get? key with
      | some held => v.put key held
      | none => v)
    updated

/-- Replaces a resource by the one of a body. -/
def replace (s : Service) (kind : Kind) (id : String) (body : Json) (baseUrl : String)
    (now : Instant) : Change Json :=
  (s.registry.build kind body).map fun resource => do
    let existing ← Task.fetch kind id
    checkUnique kind resource (some id)
    let resource ← resolveMembers kind resource baseUrl
    let stored ← s.persist kind id existing (keepAssigned existing resource) now
    decorate kind stored baseUrl

/-- Modifies a resource. -/
def patch (s : Service) (kind : Kind) (id : String) (request : PatchRequest) (baseUrl : String)
    (now : Instant) : Change Json :=
  if !s.protocol.patch then .error (.notOffered .patch)
  else match request.check with
    | .error e => .error (.patch e)
    | .ok () => .ok do
      let existing ← Task.fetch kind id
      match Operation.applyAll s.registry kind request.operations existing with
      | .error e => throw (.patch e)
      | .ok patched =>
        checkUnique kind patched (some id)
        let patched ← resolveMembers kind patched baseUrl
        let stored ← s.persist kind id existing patched now
        decorate kind stored baseUrl

/-- Takes a resource out of the groups that have it as a member; `clock` gives the times of the
writes, of which `written` have been made. -/
def leaveGroups (s : Service) (id : String) (clock : Nat → Instant) :
    Nat → List Json → Task Unit
  | _, [] => pure ()
  | written, group :: rest =>
    match group.identifier?, withoutMember? id group with
    | some groupId, some updated => do
      let _ ← s.persist .group groupId group updated (clock written)
      s.leaveGroups id clock (written + 1) rest
    | _, _ => s.leaveGroups id clock written rest

/-- Deletes a resource, which then leaves every group. -/
def delete (s : Service) (kind : Kind) (id : String) (clock : Nat → Instant) : Change Unit :=
  .ok do
    match ← Task.ask (.delete kind id) with
    | .error .notFound => throw (.notFound kind id)
    | .error e => throw (.store e)
    | .ok () => do
      let groups ← Task.list .group
      s.leaveGroups id clock 0 groups

end Service

end Roster
