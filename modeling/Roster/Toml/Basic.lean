import Roster.Members

/-!
Documents in TOML. A list is a value; an array of tables grows with every header of its name, and
a path that leads through it leads through its last table.
-/

namespace Roster

/-- How a table came about: by a header of its own, by a header of a table inside it, by a dotted
key, or as a value. -/
inductive TableForm where
  | header
  | implied
  | dotted
  | inline
deriving DecidableEq, Repr, Inhabited

inductive Toml where
  | text (s : String)
  | whole (n : Int)
  /-- A number with a fraction or an exponent, an infinity or no number, as it is written. -/
  | fraction (text : String)
  /-- A date, a time of day or both, as it is written. -/
  | moment (text : String)
  | bool (b : Bool)
  | list (items : List Toml)
  | table (form : TableForm) (members : List (String × Toml))
  /-- An array of tables, the last one apart. -/
  | tables (earlier : List Toml) (last : List (String × Toml))
deriving Repr, Inhabited

namespace Toml

def text? : Toml → Option String
  | .text s => some s
  | _ => none

def bool? : Toml → Option Bool
  | .bool b => some b
  | _ => none

/-- A whole number from zero up to a limit. -/
def natural? (limit : Nat) : Toml → Option Nat
  | .whole n => if 0 ≤ n ∧ n ≤ limit then some n.toNat else none
  | _ => none

/-- The items of a list or of an array of tables. -/
def items? : Toml → Option (List Toml)
  | .list items => some items
  | .tables earlier last => some (earlier ++ [.table .header last])
  | _ => none

/-- The fields of a record with the declared names: a table that has no other, or a list of their
values in this order, which may end early and whose items beyond them count for nothing. -/
def fields? (names : List String) (v : Toml) : Option (Members Toml) :=
  match v with
  | .table _ members => if members.all fun m => names.contains m.1 then some members else none
  | v => v.items?.map names.zip

/-- Whether a value says nothing: an empty list or table. -/
def isEmpty : Toml → Bool
  | .list [] | .table _ [] => true
  | _ => false

/-- One of several words, as a text or as the only key of a table, with an empty value. -/
def word? {α : Type} (options : List (String × α)) : Toml → Option α
  | .text s => Members.get? options s
  | .table _ [(s, v)] => if v.isEmpty then Members.get? options s else none
  | _ => none

/-- Changes what the last key of a header names. Tables on the way are new or may be extended. -/
def extend? (change : Option Toml → Option Toml) (members : Members Toml) :
    List String → Option (Members Toml)
  | [] => none
  | [key] => (change (Members.get? members key)).map (Members.insert members key)
  | key :: keys =>
    match Members.get? members key with
    | none => (extend? change [] keys).map fun inner =>
      Members.insert members key (.table .implied inner)
    | some (.table .inline _) => none
    | some (.table form inner) => (extend? change inner keys).map fun inner =>
      Members.insert members key (.table form inner)
    | some (.tables earlier last) => (extend? change last keys).map fun last =>
      Members.insert members key (.tables earlier last)
    | some _ => none

/-- Opens the table of a header. A table may be opened once, and not at all where a dotted key or
a value has made it. -/
def openTable? (members : Members Toml) (keys : List String) : Option (Members Toml) :=
  extend?
    (fun
      | none => some (.table .header [])
      | some (.table .implied inner) => some (.table .header inner)
      | some _ => none)
    members keys

/-- Opens a further table of an array of tables, or the first one of a new array. -/
def openElement? (members : Members Toml) (keys : List String) : Option (Members Toml) :=
  extend?
    (fun
      | none => some (.tables [] [])
      | some (.tables earlier last) => some (.tables (earlier ++ [.table .header last]) [])
      | some _ => none)
    members keys

/-- Gives a dotted key its value. Tables on the way are new or were made by dotted keys; others may
only be passed through. -/
def assign? (members : Members Toml) (value : Toml) : List String → Option (Members Toml)
  | [] => none
  | [key] =>
    match Members.get? members key with
    | none => some (Members.insert members key value)
    | some _ => none
  | key :: keys =>
    match Members.get? members key with
    | none => (assign? [] value keys).map fun inner =>
      Members.insert members key (.table .dotted inner)
    | some (.table .dotted inner) => (assign? inner value keys).map fun inner =>
      Members.insert members key (.table .dotted inner)
    | some (.table .implied inner) =>
      if keys.length < 2 then none
      else (assign? inner value keys).map fun inner =>
        Members.insert members key (.table .implied inner)
    | some (.tables earlier last) =>
      if keys.length < 2 then none
      else (assign? last value keys).map fun last =>
        Members.insert members key (.tables earlier last)
    | some _ => none

/-- Gives a key of an opened table its value. -/
def assignIn? (members : Members Toml) (value : Toml) (keys : List String) :
    List String → Option (Members Toml)
  | [] => assign? members value keys
  | name :: names =>
    match Members.get? members name with
    | some (.table form inner) => (assignIn? inner value keys names).map fun inner =>
      Members.insert members name (.table form inner)
    | some (.tables earlier last) => (assignIn? last value keys names).map fun last =>
      Members.insert members name (.tables earlier last)
    | _ => none

end Toml

end Roster
