import Roster.Binary64.Basic
import Roster.Members
import Roster.Width

/-!
JSON values. A number is a whole number of 64 bits or a binary64 number, and the two kinds are
never equal; an object is a map, whose members are kept in the order of their names.
-/

namespace Roster

/-- A number of a JSON value: `1` and `1.0` are different numbers. -/
inductive Number where
  | whole (n : Int)
  | binary (x : Binary64)
deriving DecidableEq, Repr, Inhabited

/-- Equality within a kind; the two zeros of the binary kind are equal. -/
def Number.same : Number → Number → Bool
  | .whole a, .whole b => a == b
  | .binary a, .binary b => a.same b
  | _, _ => false

/-- The number as a signed word of 64 bits. -/
def Number.int64? : Number → Option Int
  | .whole n => signedWord? n
  | .binary _ => none

inductive Json where
  | null
  | bool (b : Bool)
  | num (n : Number)
  | str (s : String)
  | arr (items : List Json)
  | obj (members : List (String × Json))
deriving Repr, Inhabited

namespace Json

mutual

/-- Equality of values, numbers by `Number.same`. -/
def same (a b : Json) : Bool :=
  match a, b with
  | .null, .null => true
  | .bool x, .bool y => x == y
  | .num x, .num y => x.same y
  | .str x, .str y => x == y
  | .arr xs, .arr ys => sameItems xs ys
  | .obj xs, .obj ys => sameMembers xs ys
  | _, _ => false

def sameItems (xs ys : List Json) : Bool :=
  match xs, ys with
  | [], [] => true
  | x :: xs, y :: ys => x.same y && sameItems xs ys
  | _, _ => false

def sameMembers (xs ys : List (String × Json)) : Bool :=
  match xs, ys with
  | [], [] => true
  | (j, x) :: xs, (k, y) :: ys => j == k && x.same y && sameMembers xs ys
  | _, _ => false

end

mutual

/-- The value with the members of every object in order, the last of a repeated name kept. -/
def canonical (v : Json) : Json :=
  match v with
  | .arr items => .arr (canonicalItems items)
  | .obj members => .obj (Members.ofList (canonicalMembers members))
  | v => v

def canonicalItems (items : List Json) : List Json :=
  match items with
  | [] => []
  | v :: rest => v.canonical :: canonicalItems rest

def canonicalMembers (members : List (String × Json)) : List (String × Json) :=
  match members with
  | [] => []
  | (k, v) :: rest => (k, v.canonical) :: canonicalMembers rest

end

def ofNat (n : Nat) : Json := .num (.whole n)

def ofInt (n : Int) : Json := .num (.whole n)

/-- An object of the given members. -/
def ofMembers (pairs : List (String × Json)) : Json :=
  .obj (Members.ofList pairs)

/-- An object of those members that have a value. -/
def ofPresent (pairs : List (String × Option Json)) : Json :=
  ofMembers (pairs.filterMap fun m => m.2.map (m.1, ·))

def isNull : Json → Bool
  | .null => true
  | _ => false

def isObject : Json → Bool
  | .obj _ => true
  | _ => false

def string? : Json → Option String
  | .str s => some s
  | _ => none

def bool? : Json → Option Bool
  | .bool b => some b
  | _ => none

def number? : Json → Option Number
  | .num n => some n
  | _ => none

def int64? (v : Json) : Option Int :=
  v.number?.bind Number.int64?

def items? : Json → Option (List Json)
  | .arr items => some items
  | _ => none

def members? : Json → Option (List (String × Json))
  | .obj members => some members
  | _ => none

/-- The member of exactly this name. -/
def get? (v : Json) (key : String) : Option Json :=
  v.members?.bind (Members.get? · key)

/-- The member of this name in whatever case. -/
def member? (v : Json) (name : String) : Option Json :=
  v.members?.bind (Members.find? · name)

/-- The object with a member of exactly this name; any other value as it is. -/
def put (v : Json) (key : String) (value : Json) : Json :=
  match v with
  | .obj members => .obj (Members.insert members key value)
  | v => v

/-- The object without the member of exactly this name. -/
def without (v : Json) (key : String) : Json :=
  match v with
  | .obj members => .obj (Members.erase members key)
  | v => v

mutual

/-- A value is assigned unless it is null, an empty text or object, or a list of nothing
assigned. -/
def isPresent (v : Json) : Bool :=
  match v with
  | .null => false
  | .str s => !s.isEmpty
  | .arr items => anyPresent items
  | .obj members => !members.isEmpty
  | _ => true

def anyPresent (items : List Json) : Bool :=
  match items with
  | [] => false
  | v :: rest => v.isPresent || anyPresent rest

end

/-- The values of a list, or the value alone. -/
def flatten : Json → List Json
  | .arr items => items
  | v => [v]

end Json

end Roster
