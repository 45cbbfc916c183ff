import Roster.Schema.Registry
import Roster.Wire

/-!
The paths that a server knows.
-/

namespace Roster

/-- What is served under the root of a version. -/
inductive Endpoint where
  | provider
  | resourceTypes
  | resourceType (name : String)
  | schemas
  | schema (urn : String)
  | collection (kind : Kind)
  | search (kind : Kind)
  | resource (kind : Kind) (id : String)
deriving DecidableEq, Repr, Inhabited

inductive Route where
  | health
  | liveness
  | versioned (version : ProtocolVersion) (endpoint : Endpoint)
deriving DecidableEq, Repr, Inhabited

/-- The kind whose collection has a name. -/
def Kind.ofCollection? (name : String) : Option Kind :=
  [Kind.user, .group].find? fun kind => kind.endpoint == "/" ++ name

/-- The endpoint of the parts of a path. -/
def Endpoint.ofParts? : List String → Option Endpoint
  | ["ServiceProviderConfig"] => some .provider
  | ["ResourceTypes"] => some .resourceTypes
  | ["ResourceTypes", name] => if name.isEmpty then none else some (.resourceType name)
  | ["Schemas"] => some .schemas
  | ["Schemas", urn] => if urn.isEmpty then none else some (.schema urn)
  | [name] => (Kind.ofCollection? name).map .collection
  | [name, id] =>
    (Kind.ofCollection? name).bind fun kind =>
      if id == ".search" then some (.search kind)
      else if id.isEmpty then none
      else some (.resource kind id)
  | _ => none

/-- The parts of a path, each behind a slash. -/
def pathParts (path : String) : List String :=
  ((path.toList.splitOnP (· == '/')).map String.ofList)

/-- The route of a path; `legacy` says whether version 1 is served. -/
def Route.ofPath? (legacy : Bool) (path : String) : Option Route :=
  match pathParts path with
  | ["", "health"] => some .health
  | ["", "health", "live"] => some .liveness
  | "" :: "scim" :: "v2" :: parts => (Endpoint.ofParts? parts).map (.versioned .v2)
  | "" :: "scim" :: "v1" :: parts =>
    if legacy then (Endpoint.ofParts? parts).map (.versioned .v1) else none
  | _ => none

end Roster
