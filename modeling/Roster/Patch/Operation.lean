import Roster.Json.Parser
import Roster.Json.Record
import Roster.Patch.Error
import Roster.Schema.Urn
import Roster.Text.Blank

/-!
The operations of a modification, their JSON form and the checks that need no resource.
-/

namespace Roster

/-- An operation at a path. An addition or replacement without one has an object that names the
attributes; a removal with a value removes the listed elements only. -/
inductive Operation where
  | add (path : Option String) (value : Json)
  | replace (path : Option String) (value : Json)
  | remove (path : Option String) (value : Option Json)
deriving Repr, Inhabited

namespace Operation

def path? : Operation → Option String
  | .add path _ => path
  | .replace path _ => path
  | .remove path _ => path

/-- Checks the shape of the operation. -/
def check : Operation → Except PatchFault Unit
  | .remove path _ =>
    if path.all isBlankText then .error .pathRequired else .ok ()
  | .add none value => if value.isObject then .ok () else .error .objectRequired
  | .replace none value => if value.isObject then .ok () else .error .objectRequired
  | _ => .ok ()

/-- The fields of an operation behind its name. -/
def fields : List String := ["path", "value"]

/-- Reads the operation of a name. A removal takes null for no value. -/
def ofRecord? (word : String) (r : Record) : Option Operation := do
  let path ← r.optionalDefault "path" Json.string?
  if word == "add" || word == "Add" then
    (r.required "value" fun v => some v.canonical).map (.add path)
  else if word == "replace" || word == "Replace" then
    (r.required "value" fun v => some v.canonical).map (.replace path)
  else if word == "remove" || word == "Remove" then
    (r.optionalDefault "value" fun v => some v.canonical).map (.remove path)
  else none

/-- Reads an operation: an object with its name under `op`, or a list that starts with it. -/
def ofJson? : Json → Option Operation
  | .obj members => do
    let tag ← Record.ofJson? ["op"] (.obj members)
    let word ← tag.required "op" Json.string?
    let r ← Record.ofJson? fields (.obj members)
    ofRecord? word r
  | .arr (.str word :: rest) => (Record.ofJson? fields (.arr rest)).bind (ofRecord? word)
  | _ => none

def toJson : Operation → Json
  | .add path value => Json.ofPresent
      [("op", some (.str "add")), ("path", path.map .str), ("value", some value)]
  | .replace path value => Json.ofPresent
      [("op", some (.str "replace")), ("path", path.map .str), ("value", some value)]
  | .remove path value => Json.ofPresent
      [("op", some (.str "remove")), ("path", path.map .str), ("value", value)]

end Operation

/-- A request to modify a resource. -/
structure PatchRequest where
  schemas : List String
  operations : List Operation
deriving Repr, Inhabited

namespace PatchRequest

/-- The fields of a request. -/
def fields : List String := ["schemas", "Operations"]

def ofJson? (v : Json) : Option PatchRequest := do
  let r ← Record.ofJson? fields v
  let schemas ← r.required "schemas" Json.strings?
  let operations ← r.required "Operations" (Json.listOf? Operation.ofJson?)
  some ⟨schemas, operations⟩

def toJson (p : PatchRequest) : Json :=
  Json.ofMembers
    [("schemas", .arr (p.schemas.map .str)), ("Operations", .arr (p.operations.map (·.toJson)))]

/-- Reads the text of a request. -/
def parse? (text : String) : Option PatchRequest :=
  (Json.parseRecord? fields text).bind ofJson?

/-- Checks operations, the first of which has the index `i`. -/
def checkFrom : Nat → List Operation → Except PatchError Unit
  | _, [] => .ok ()
  | i, op :: ops =>
    match op.check with
    | .ok () => checkFrom (i + 1) ops
    | .error fault => .error ⟨fault, some i⟩

/-- Checks that the request declares itself and that its operations are of the right shape. -/
def check (p : PatchRequest) : Except PatchError Unit :=
  if !p.schemas.any (sameName · Urn.patchOperation) then
    .error ⟨.messageNotDeclared Urn.patchOperation, none⟩
  else if p.operations.isEmpty then .error ⟨.noOperations, none⟩
  else checkFrom 0 p.operations

end PatchRequest

end Roster
