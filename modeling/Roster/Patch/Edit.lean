import Roster.Patch.Error

/-!
Edits of objects and lists inside a JSON value. Null and missing members stand for an empty object
or list, and a member keeps the name under which it is held.
-/

namespace Roster

/-- A change of a part of a value, which may fail. -/
abbrev Edit (α : Type) := α → Except PatchFault α

namespace Json

/-- Edits the object that a value holds. -/
def editObject (name : String) (f : Edit (Members Json)) (v : Json) : Except PatchFault Json :=
  match v with
  | .null => (f []).map .obj
  | .obj members => (f members).map .obj
  | _ => .error (.holdsNoObject name)

/-- Edits the list that a value holds. -/
def editList (name : String) (f : Edit (List Json)) (v : Json) : Except PatchFault Json :=
  match v with
  | .null => (f []).map .arr
  | .arr items => (f items).map .arr
  | _ => .error (.holdsNoList name)

/-- Drops the member held for a name. -/
def dropMember (name : String) : Json → Json
  | .obj members => .obj (Members.remove members name)
  | v => v

/-- Whether a value of a list is marked as its primary one. -/
def isPrimary (v : Json) : Bool :=
  (v.member? "primary").bind bool? == some true

/-- The value marked as not primary, if it was. -/
def demoted : Json → Json
  | .obj members =>
    if isPrimary (.obj members) then .obj (Members.set members "primary" (.bool false))
    else .obj members
  | v => v

end Json

namespace Members

/-- Edits the value held for a name, null where there is none. -/
def edit (name : String) (f : Edit Json) (ms : Members Json) : Except PatchFault (Members Json) :=
  let key := (key? ms name).getD name
  (f ((get? ms key).getD .null)).map (insert ms key)

def editObject (name : String) (f : Edit (Members Json)) : Edit (Members Json) :=
  edit name (Json.editObject name f)

def editList (name : String) (f : Edit (List Json)) : Edit (Members Json) :=
  edit name (Json.editList name f)

/-- Edits the list held for a name, if there is one. -/
def editHeldList (name : String) (f : Edit (List Json)) (ms : Members Json) :
    Except PatchFault (Members Json) :=
  match find? ms name with
  | some (.arr _) => editList name f ms
  | _ => .ok ms

/-- Edits the object that names lead to, making the objects on the way. -/
def editWithin (keys : List String) (f : Edit (Members Json)) : Edit (Members Json) :=
  match keys with
  | [] => f
  | key :: keys => editObject key (editWithin keys f)

/-- Puts every member of the second object in place of one of the same name. -/
def setAll (ms others : Members Json) : Members Json :=
  others.foldl (fun acc m => set acc m.1 m.2) ms

/-- Drops the list held for a name when it is empty. -/
def dropEmptyList (name : String) (ms : Members Json) : Members Json :=
  match find? ms name with
  | some (.arr []) => remove ms name
  | _ => ms

end Members

namespace Json

/-- Edits the object that names lead to in a resource. -/
def editAt (keys : List String) (f : Edit (Members Json)) (resource : Json) :
    Except PatchFault Json :=
  editObject "resource" (Members.editWithin keys f) resource

/-- The object that names lead to. -/
def objectAt? (v : Json) : List String → Option (Members Json)
  | [] => v.members?
  | key :: keys => (v.member? key).bind fun v => v.objectAt? keys

end Json

/-! ### Lists of values -/

/-- Edits the values at some indices, the first one having the index `start`. -/
def editSelected (selected : Nat → Bool) (f : Edit Json) :
    Nat → List Json → Except PatchFault (List Json)
  | _, [] => .ok []
  | start, v :: rest => do
    let v ← if selected start then f v else .ok v
    let rest ← editSelected selected f (start + 1) rest
    .ok (v :: rest)

/-- The values with all but those at some indices marked as not primary. -/
def demoteOthers (kept : Nat → Bool) (items : List Json) : List Json :=
  items.mapIdx fun i v => if kept i then v else v.demoted

/-- Appends a value unless the list holds it. A primary one demotes the others. -/
def appendElement (items : List Json) (v : Json) : List Json :=
  if items.any (·.same v) then items
  else if v.isPrimary then items.map Json.demoted ++ [v]
  else items ++ [v]

/-- The first of several equal values. -/
def dropRepeats (items : List Json) : List Json :=
  items.foldl (fun kept v => if kept.any (·.same v) then kept else kept ++ [v]) []

/-- The values that are not at some indices. -/
def dropSelected (selected : Nat → Bool) (items : List Json) : List Json :=
  (items.zipIdx.filter fun p => !selected p.2).map Prod.fst

/-- Whether a value named for removal is a value of a list: by `value` where both have one. -/
def sameElement (named v : Json) : Bool :=
  match named.member? "value", v.member? "value" with
  | some a, some b => a.same b
  | _, _ => named.same v

/-! ### Declared schemas -/

/-- Whether a value is a URN, in whatever case. -/
def Json.isUrnOf (urn : String) (v : Json) : Bool :=
  v.string?.any (sameName urn)

/-- Adds a URN to the schemas of a resource, if it is not among them. -/
def Json.declare (urn : String) (resource : Json) : Json :=
  match resource.editAt [] (Members.editList "schemas" fun schemas =>
      .ok (if schemas.any (isUrnOf urn) then schemas else schemas ++ [.str urn])) with
  | .ok resource => resource
  | .error _ => resource

/-- Takes a URN off the schemas of a resource. -/
def Json.undeclare (urn : String) (resource : Json) : Json :=
  match resource with
  | .obj root =>
    match Members.editHeldList "schemas"
        (fun schemas => .ok (schemas.filter fun v => !v.isUrnOf urn)) root with
    | .ok root => .obj root
    | .error _ => resource
  | _ => resource

/-- Drops an extension that holds nothing. -/
def Json.dropEmptyExtension (urn : String) (resource : Json) : Json :=
  match resource.member? urn with
  | some (.obj []) => (resource.dropMember urn).undeclare urn
  | _ => resource

end Roster
