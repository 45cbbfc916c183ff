import Roster.Json.Basic

/-!
Records read from JSON: an object with named members, or a list that gives the fields in the order
of their declaration. Members of other names are ignored; a declared one may stand only once.
-/

namespace Roster

/-- The fields of a record. In a list only fields with a default may be missing at the end. -/
structure Record where
  fields : List (String × Json)
  listed : Bool

namespace Record

/-- Reads a record with the declared names. -/
def ofJson? (names : List String) : Json → Option Record
  | .obj members =>
    if names.any fun name => 1 < (members.filter fun m => m.1 == name).length then none
    else some ⟨members, false⟩
  | .arr items =>
    if items.length ≤ names.length then some ⟨names.zip items, true⟩ else none
  | _ => none

variable {α : Type}

def get? (r : Record) (name : String) : Option Json :=
  Members.get? r.fields name

/-- A field that must be there. -/
def required (r : Record) (name : String) (read : Json → Option α) : Option α :=
  (r.get? name).bind read

/-- A field that may be null or, by name, missing. -/
def optional (r : Record) (name : String) (read : Json → Option α) : Option (Option α) :=
  match r.get? name with
  | none => if r.listed then none else some none
  | some .null => some none
  | some v => (read v).map some

/-- A field that has a value when it is missing. -/
def withDefault (r : Record) (name : String) (value : α) (read : Json → Option α) : Option α :=
  match r.get? name with
  | none => some value
  | some v => read v

/-- A field that may be null or missing in either form. -/
def optionalDefault (r : Record) (name : String) (read : Json → Option α) : Option (Option α) :=
  r.withDefault name none fun v => if v.isNull then some none else (read v).map some

end Record

namespace Json

/-- A list of values read one by one. -/
def listOf? {α : Type} (read : Json → Option α) (v : Json) : Option (List α) :=
  v.items?.bind fun items => items.mapM read

def strings? (v : Json) : Option (List String) :=
  v.listOf? string?

/-- A choice by name, given as a text or as an object of that name with null. -/
def choice? {α : Type} (options : List (String × α)) (v : Json) : Option α :=
  match v with
  | .str s => Members.get? options s
  | .obj [(s, .null)] => Members.get? options s
  | _ => none

end Json

end Roster
