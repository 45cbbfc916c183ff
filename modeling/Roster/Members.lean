import Roster.Text.Ascii

/-!
Members of an object: names with values, kept in the order of their names. A name is looked up
exactly first, and then as the first one that is the same but for letter case.
-/

namespace Roster

abbrev Members (α : Type) := List (String × α)

namespace Members

variable {α : Type}

/-- The names stand in strictly increasing order of their characters. -/
def Sorted (ms : Members α) : Prop :=
  ms.Pairwise fun a b => a.1 < b.1

def keys (ms : Members α) : List String :=
  ms.map Prod.fst

/-- The value under exactly this name. -/
def get? (ms : Members α) (key : String) : Option α :=
  match ms with
  | [] => none
  | (k, v) :: rest => if k = key then some v else get? rest key

/-- Puts the value under exactly this name, at its place in the order. -/
def insert (ms : Members α) (key : String) (value : α) : Members α :=
  match ms with
  | [] => [(key, value)]
  | (k, v) :: rest =>
    if key = k then (key, value) :: rest
    else if key < k then (key, value) :: (k, v) :: rest
    else (k, v) :: insert rest key value

/-- Drops the member of exactly this name. -/
def erase (ms : Members α) (key : String) : Members α :=
  ms.filter fun m => m.1 ≠ key

/-- Members in order, the last of several values for one name winning. -/
def ofList (pairs : List (String × α)) : Members α :=
  pairs.foldl (fun ms m => insert ms m.1 m.2) []

/-- The name under which `name` is held: itself, or else the first one of another case. -/
def key? (ms : Members α) (name : String) : Option String :=
  if (get? ms name).isSome then some name
  else (keys ms).find? (sameName name)

/-- The value of `name` in whatever case it is held. -/
def find? (ms : Members α) (name : String) : Option α :=
  (key? ms name).bind (get? ms)

/-- Puts the value under `name`, in place of a member of another case. -/
def set (ms : Members α) (name : String) (value : α) : Members α :=
  match key? ms name with
  | some held => if held = name then insert ms name value else insert (erase ms held) name value
  | none => insert ms name value

/-- Drops the member held for `name` in whatever case. -/
def remove (ms : Members α) (name : String) : Members α :=
  match key? ms name with
  | some held => erase ms held
  | none => ms

/-- Inserts every member of the second object over those of the first. -/
def merge (ms others : Members α) : Members α :=
  others.foldl (fun acc m => insert acc m.1 m.2) ms

end Members

end Roster
