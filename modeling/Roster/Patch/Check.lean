import Roster.Instant.Parser
import Roster.Patch.Error

/-!
Values checked against attribute definitions. A checked value holds the types that its definition
names, members under their canonical names, and no read-only or null members.
-/

namespace Roster

/-- Checks a value that is not complex at a type. Texts that say true or false are taken for
booleans. -/
def AttributeType.admit? (type : AttributeType) (v : Json) : Option Json :=
  match type with
  | .string | .reference | .binary => v.string?.map .str
  | .boolean =>
    match v with
    | .bool b => some (.bool b)
    | .str s =>
      if sameName s "true" then some (.bool true)
      else if sameName s "false" then some (.bool false)
      else none
    | _ => none
  | .integer =>
    match v with
    | .num (.whole n) => some (.num (.whole n))
    | _ => none
  | .decimal => v.number?.map .num
  | .dateTime => v.string?.bind fun s => (Instant.parse? s).map fun _ => .str s
  | .complex => none

/-- Checks a value of an attribute that is not complex. -/
def checkScalar (a : Attribute) (v : Json) : Except PatchFault Json :=
  match a.type.admit? v with
  | some v => .ok v
  | none => .error (.wrongType a.name a.type v)

mutual

/-- Checks one value of an attribute, whether or not it is a list. -/
def checkSingle (a : Attribute) (v : Json) : Except PatchFault Json :=
  match v with
  | .obj members =>
    if a.type == .complex then
      (checkPairs a.name a.subAttributes members).map fun pairs => .obj (Members.ofList pairs)
    else checkScalar a (.obj members)
  | v => if a.type == .complex then .error (.notObject a.name v) else checkScalar a v

/-- Checks every value of a list. -/
def checkItems (a : Attribute) (items : List Json) : Except PatchFault (List Json) :=
  match items with
  | [] => .ok []
  | v :: rest => do
    let v ← checkSingle a v
    let rest ← checkItems a rest
    .ok (v :: rest)

/-- Checks members against definitions, in their order. -/
def checkPairs (owner : String) (definitions : List Attribute) (members : List (String × Json)) :
    Except PatchFault (List (String × Json)) :=
  match members with
  | [] => .ok []
  | (key, v) :: rest =>
    match findAttribute? definitions key with
    | none => .error (.unknownMember owner key)
    | some a =>
      if a.isReadOnly || v.isNull then checkPairs owner definitions rest
      else do
        let checked :=
          if a.multiValued then
            match v with
            | .arr items => (checkItems a items).map .arr
            | v => (checkSingle a v).map fun v => .arr [v]
          else checkSingle a v
        let v ← checked
        let rest ← checkPairs owner definitions rest
        .ok ((a.name, v) :: rest)

end

/-- Checks the values of a list; a value alone counts as a list of one. -/
def checkElements (a : Attribute) (v : Json) : Except PatchFault (List Json) :=
  checkItems a v.flatten

/-- Checks the value of an attribute. -/
def checkValue (a : Attribute) (v : Json) : Except PatchFault Json :=
  if a.multiValued then (checkElements a v).map .arr else checkSingle a v

/-- Checks the members of an object. -/
def checkMembers (owner : String) (definitions : List Attribute) (v : Json) :
    Except PatchFault (Members Json) :=
  match v with
  | .obj members => (checkPairs owner definitions members).map Members.ofList
  | v => .error (.notObject owner v)

/-- Fails when an assigned immutable value would change. -/
def checkImmutable (a : Attribute) (current : Option Json) (new : Json) :
    Except PatchFault Unit :=
  if a.mutability == .immutable && current.any fun v => v.isPresent && !v.same new then
    .error (.immutable a.name)
  else .ok ()

theorem checkPairs_cons (owner : String) (definitions : List Attribute) (key : String) (v : Json)
    (rest : List (String × Json)) :
    checkPairs owner definitions ((key, v) :: rest) =
      match findAttribute? definitions key with
      | none => .error (.unknownMember owner key)
      | some a =>
        if a.isReadOnly || v.isNull then checkPairs owner definitions rest
        else (do
          let v ← checkValue a v
          let rest ← checkPairs owner definitions rest
          .ok ((a.name, v) :: rest)) := by
  rw [checkPairs]
  cases findAttribute? definitions key with
  | none => rfl
  | some a =>
    have value : (if a.multiValued then
        match v with
        | .arr items => (checkItems a items).map Json.arr
        | v => (checkSingle a v).map fun v => .arr [v]
      else checkSingle a v) = checkValue a v := by
      unfold checkValue checkElements
      split
      · cases v <;> simp only [Json.flatten, checkItems] <;> cases checkSingle a _ <;> rfl
      · rfl
    simp only [value]

theorem checkSingle_complex {a : Attribute} (h : a.type = .complex) (v : Json) :
    checkSingle a v = (checkMembers a.name a.subAttributes v).map .obj := by
  cases v <;> simp [checkSingle, checkMembers, h, Except.map]
  cases checkPairs a.name a.subAttributes _ <;> rfl

end Roster
