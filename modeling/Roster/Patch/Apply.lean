import Roster.Patch.Check
import Roster.Patch.Edit
import Roster.Patch.Operation
import Roster.Patch.Target

/-!
Applying operations to a resource. Each addresses its target in the resource as the ones before
have left it, and the first that fails ends the whole.
-/

namespace Roster

/-- Whether a checked value of a sub-attribute marks its element as the primary one. -/
def Attribute.marksPrimary (sub : Attribute) (v : Json) : Bool :=
  sub.name == "primary" && v.bool? == some true

/-- Sets a sub-attribute of an element. -/
def setSub (sub : Attribute) (new : Json) : Edit Json :=
  Json.editObject sub.name fun members => do
    checkImmutable sub (Members.find? members sub.name) new
    .ok (Members.set members sub.name new)

/-- Drops a sub-attribute of an element. -/
def dropSub (sub : Attribute) : Edit Json
  | .obj members =>
    if sub.mutability == .immutable && (Members.find? members sub.name).any Json.isPresent then
      .error (.immutable sub.name)
    else .ok (.obj (Members.remove members sub.name))
  | v => .ok v

/-- Sets a sub-attribute of the elements at some indices. -/
def setSelected (a sub : Attribute) (indices : List Nat) (value : Json) : Edit (Members Json) :=
  fun holder => do
    let new ← checkValue sub value
    Members.editList a.name (fun items =>
      let items := if sub.marksPrimary new then demoteOthers indices.contains items else items
      editSelected indices.contains (setSub sub new) 0 items) holder

/-- Sets a sub-attribute of every element of a list that has any. -/
def setEvery (a sub : Attribute) (value : Json) : Edit (Members Json) := fun holder => do
  let new ← checkValue sub value
  match Members.find? holder a.name with
  | some (.arr (v :: rest)) =>
    if sub.marksPrimary new && !rest.isEmpty then .error (.severalPrimary a.name)
    else Members.editList a.name (fun _ => (v :: rest).mapM (setSub sub new)) holder
  | _ => .error (.noValues a.name)

/-- The element that an addition makes where its filter selects none: it has the values that the
filter asks for. -/
def Target.seedElement (t : Target) (a : Attribute) (value : Json) : Except PatchFault Json :=
  match t.filter.bind Filter.equalitySeeds? with
  | none => .error (.nothingMatched t.path)
  | some seeds =>
    let seeded := Members.ofList (seeds.map fun p => (p.1, p.2.toJson))
    match t.sub, value with
    | some sub, value => checkSingle a (.obj (Members.insert seeded sub.name value))
    | none, .obj members => checkSingle a (.obj (Members.merge seeded members))
    | none, _ => .error (.elementNotObject a.name)

/-- Adds a value to an attribute in the object that holds it. -/
def Target.addIn (t : Target) (a : Attribute) (value : Json) : Edit (Members Json) := fun holder =>
  match t.selection, t.sub with
  | .whole, none =>
    if a.multiValued then do
      let items ← checkElements a value
      Members.editList a.name (fun held => .ok (items.foldl appendElement held)) holder
    else if a.type == .complex then do
      let incoming ← checkMembers a.name a.subAttributes value
      Members.editObject a.name (fun held => incoming.foldlM (fun members m => do
        if let some sub := a.subAttribute? m.1 then
          checkImmutable sub (Members.find? members m.1) m.2
        .ok (Members.set members m.1 m.2)) held) holder
    else do
      let new ← checkValue a value
      checkImmutable a (Members.find? holder a.name) new
      .ok (Members.set holder a.name new)
  | .whole, some sub => setEvery a sub value holder
  | .elements [], _ => do
    let element ← t.seedElement a value
    Members.editList a.name (fun held => .ok (appendElement held element)) holder
  | .elements indices, some sub => setSelected a sub indices value holder
  | .elements indices, none => do
    let incoming ← checkMembers a.name a.subAttributes value
    Members.editList a.name (fun held =>
      let held := if Json.isPrimary (.obj incoming) then demoteOthers indices.contains held else held
      editSelected indices.contains
        (Json.editObject a.name fun members => .ok (Members.setAll members incoming)) 0 held) holder

/-- Replaces the value of an attribute in the object that holds it. -/
def Target.replaceIn (t : Target) (a : Attribute) (value : Json) : Edit (Members Json) :=
  fun holder =>
    match t.selection, t.sub with
    | .whole, none => do
      let new ← checkValue a value
      if a.multiValued && 1 < (new.flatten.filter Json.isPrimary).length then
        .error (.severalPrimary a.name)
      else do
        checkImmutable a (Members.find? holder a.name) new
        .ok (Members.set holder a.name new)
    | .whole, some sub => setEvery a sub value holder
    | .elements indices, some sub => setSelected a sub indices value holder
    | .elements indices, none => do
      let new ← checkSingle a value
      Members.editList a.name (fun held => do
        let held := if new.isPrimary then demoteOthers indices.contains held else held
        let held ← editSelected indices.contains (fun _ => .ok new) 0 held
        .ok (dropRepeats held)) holder

/-- Removes an attribute, or some of its values, from the object that holds it. -/
def Target.removeIn (t : Target) (a : Attribute) (value : Option Json) : Edit (Members Json) :=
  fun holder =>
    match t.selection, t.sub with
    | .whole, none =>
      if a.required then .error (.required a.name)
      else
        match a.multiValued, value with
        | true, some named =>
          Members.editHeldList a.name (fun items =>
            .ok (items.filter fun v => !named.flatten.any (sameElement · v))) holder
        | _, _ =>
          if a.mutability == .immutable && (Members.find? holder a.name).any Json.isPresent then
            .error (.immutable a.name)
          else .ok (Members.remove holder a.name)
    | .elements indices, none =>
      Members.editHeldList a.name (fun items => .ok (dropSelected indices.contains items)) holder
    | selection, some sub =>
      if sub.required then .error (.required (a.name ++ "." ++ sub.name))
      else
        let selected := match selection with
          | .whole => fun _ => true
          | .elements indices => indices.contains
        Members.editHeldList a.name (editSelected selected (dropSub sub) 0) holder

/-- The resource with the target's extension declared. -/
def Target.declareIn (t : Target) (resource : Json) : Json :=
  match t.extension with
  | some urn => resource.declare urn
  | none => resource

/-- Lifts a fault of an expression. -/
def liftFault {α : Type} : Except ExpressionError α → Except PatchFault α
  | .ok v => .ok v
  | .error e => .error (.expression e)

/-- Adds a value at a target. -/
def Target.add (t : Target) (value resource : Json) : Except PatchFault Json :=
  match t.definition with
  | none => do
    let incoming ← checkMembers t.name t.members value
    let resource ← resource.editAt [t.name] fun members => .ok (Members.setAll members incoming)
    .ok (resource.declare t.name)
  | some a => do
    let resource ← resource.editAt t.container (t.addIn a value)
    .ok (t.declareIn resource)

/-- Replaces the value at a target. -/
def Target.replace (t : Target) (value resource : Json) : Except PatchFault Json :=
  match t.definition with
  | none => do
    let incoming ← checkMembers t.name t.members value
    let resource ← resource.editAt [] fun root => .ok (Members.set root t.name (.obj incoming))
    .ok (resource.declare t.name)
  | some a => do
    liftFault t.requireMatch
    let resource ← resource.editAt t.container (t.replaceIn a value)
    .ok (t.declareIn resource)

/-- Removes what a target addresses, or the named values of it. A list that loses its last value
goes with it, and so does an extension that is left empty. -/
def Target.remove (r : Registry) (kind : Kind) (t : Target) (value : Option Json)
    (resource : Json) : Except PatchFault Json :=
  match t.definition with
  | none =>
    if (r.requiredExtensions kind).any (sameName · t.name) then
      .error (.requiredExtension t.name)
    else .ok ((resource.dropMember t.name).undeclare t.name)
  | some a => do
    liftFault t.requireMatch
    if (resource.objectAt? t.container).isNone then .ok resource
    else
      let resource ← resource.editAt t.container fun holder => do
        let holder ← t.removeIn a value holder
        .ok (Members.dropEmptyList a.name holder)
      match t.extension with
      | some urn => .ok (resource.dropEmptyExtension urn)
      | none => .ok resource

/-- What a text addresses in a resource. -/
def resolveText (r : Registry) (kind : Kind) (path : String) (resource : Json) :
    Except PatchFault Target :=
  liftFault do
    let e ← Expression.parse r path
    e.resolve r kind resource

/-- The two ways of assigning a value. -/
inductive Assignment where
  | add
  | replace
deriving DecidableEq, Repr, Inhabited

/-- Assigns a value at a path; null removes what is there. -/
def assignAt (r : Registry) (kind : Kind) (how : Assignment) (path : String) (value : Json) :
    Edit Json := fun resource => do
  let target ← resolveText r kind path resource
  if value.isNull then target.remove r kind none resource
  else match how with
    | .add => target.add value resource
    | .replace => target.replace value resource

/-- Assigns members that name attributes. Read-only ones and the schemas are passed over. -/
def assignMembers (r : Registry) (kind : Kind) (how : Assignment) :
    List (String × Json) → Edit Json
  | [], resource => .ok resource
  | (key, v) :: rest, resource =>
    if sameName key "schemas" || kind.isReadOnly key then assignMembers r kind how rest resource
    else do
      let resource ← assignAt r kind how key v resource
      assignMembers r kind how rest resource

/-- Assigns a value, at a path or member by member. -/
def assign (r : Registry) (kind : Kind) (how : Assignment) (path : Option String) (value : Json) :
    Edit Json := fun resource =>
  match path, value with
  | some path, value => assignAt r kind how path value resource
  | none, .obj members => assignMembers r kind how members resource
  | none, _ => .error .objectRequired

namespace Operation

/-- Applies one operation. -/
def apply (r : Registry) (kind : Kind) (op : Operation) (resource : Json) :
    Except PatchFault Json := do
  op.check
  match op with
  | .add path value => assign r kind .add path value resource
  | .replace path value => assign r kind .replace path value resource
  | .remove path value => do
    let target ← resolveText r kind (path.getD "") resource
    target.remove r kind value resource

/-- Applies operations in turn, the first of which has the index `i`. -/
def applyFrom (r : Registry) (kind : Kind) : Nat → List Operation → Json → Except PatchError Json
  | _, [], resource => .ok resource
  | i, op :: ops, resource =>
    match op.apply r kind resource with
    | .ok resource => applyFrom r kind (i + 1) ops resource
    | .error fault => .error ⟨fault, some i⟩

/-- Applies operations in turn. -/
def applyAll (r : Registry) (kind : Kind) (ops : List Operation) (resource : Json) :
    Except PatchError Json :=
  applyFrom r kind 0 ops resource

end Operation

end Roster
