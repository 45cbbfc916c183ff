import Roster.Json.Record
import Roster.Patch.Apply
import Roster.Service.Error

/-!
The resource that a request body describes. Its schemas are checked first; then its attributes are
put one by one into a resource that holds nothing but its core schema.
-/

namespace Roster

/-- The resource of a kind that holds nothing yet. -/
def Kind.blank (kind : Kind) : Json :=
  .obj [("schemas", .arr [.str kind.coreSchema.id])]

namespace Registry

/-- Checks the schemas that a body declares. -/
def checkSchemas (r : Registry) (kind : Kind) (schemas : List String) :
    Except ValueFault Unit :=
  let core := kind.coreSchema.id
  if !schemas.any (sameName core) then .error (.coreNotDeclared core)
  else match (r.requiredExtensions kind).find? fun urn => !schemas.any (sameName urn) with
    | some urn => .error (.extensionNotDeclared urn)
    | none =>
      match schemas.find? fun urn => !sameName core urn && (r.extension? kind urn).isNone with
      | some urn => .error (.unsupportedSchema urn kind)
      | none => .ok ()

/-- Adds the extensions among declared schemas to those of a resource. -/
def declareExtensions (r : Registry) (kind : Kind) (schemas : List String) (resource : Json) :
    Json :=
  match resource.get? "schemas" with
  | some (.arr declared) =>
    let ids := schemas.filterMap fun urn => (r.extension? kind urn).map (·.id)
    resource.put "schemas" <| .arr <| ids.foldl
      (fun declared id =>
        if declared.any (·.string? == some id) then declared else declared ++ [.str id])
      declared
  | _ => resource

/-- The first attribute that a resource must have and has not. -/
def missingAttribute? (kind : Kind) (resource : Json) : Option Attribute :=
  kind.coreSchema.attributes.find? fun a =>
    a.required && (resource.member? a.name).all Json.isNull

/-- The members of a body that a client may assign. -/
def assignable (kind : Kind) (members : Members Json) : Members Json :=
  (members.erase "schemas").filter fun m => !kind.isReadOnly m.1

/-- The resource of a body. -/
def build (r : Registry) (kind : Kind) (body : Json) : Except ServiceError Json :=
  match body with
  | .obj members =>
    match (Members.get? members "schemas").bind Json.strings? with
    | none => .error (.invalidValue .schemasNotListed)
    | some schemas =>
      match r.checkSchemas kind schemas with
      | .error fault => .error (.invalidValue fault)
      | .ok () =>
        let attributes := Json.obj (assignable kind members)
        match (Operation.replace none attributes).apply r kind kind.blank with
        | .error fault => .error (.invalidValue (.attribute fault))
        | .ok resource =>
          let resource := r.declareExtensions kind schemas resource
          match missingAttribute? kind resource with
          | some a => .error (.invalidValue (.required a.name))
          | none => .ok resource
  | _ => .error .bodyNotObject

end Registry

end Roster
