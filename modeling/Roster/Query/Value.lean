import Roster.Filter.Basic
import Roster.Instant.Parser
import Roster.Schema.Attribute
import Roster.Text.Lowercase
import Roster.Width

/-!
Values read at the type of an attribute, and their comparison: texts by code point, in lower case
unless the attribute is exact about case; numbers and instants by value.
-/

namespace Roster

/-- A value of an attribute's type. -/
inductive TypedValue where
  | null
  | bool (b : Bool)
  | integer (n : Int)
  | decimal (d : Decimal)
  | dateTime (t : Instant)
  | text (s : String)
deriving DecidableEq, Repr, Inhabited

/-- The decimal of a JSON number: exact for a signed word, else by way of binary64. -/
def Json.decimal? (v : Json) : Option Decimal :=
  match v with
  | .num (.whole n) =>
    match signedWord? n with
    | some n => some (Decimal.ofInt n)
    | none => (Binary64.ofNat? (n < 0) n.natAbs).bind Decimal.ofBinary?
  | .num (.binary x) => Decimal.ofBinary? x
  | _ => none

def Json.instant? (v : Json) : Option Instant :=
  v.string?.bind Instant.parse?

/-- Reads a JSON value at a type. Complex values have no such reading. -/
def TypedValue.ofJson? (type : AttributeType) (v : Json) : Option TypedValue :=
  match type with
  | .string | .reference | .binary => v.string?.map .text
  | .boolean => v.bool?.map .bool
  | .integer => v.int64?.map .integer
  | .decimal => v.decimal?.map .decimal
  | .dateTime => v.instant?.map .dateTime
  | .complex => none

/-- Order by code point. -/
def orderText (a b : List Char) : Ordering :=
  if a = b then .eq else if a < b then .lt else .gt

/-- The form in which a text is compared. -/
def comparedText (caseExact : Bool) (s : String) : List Char :=
  if caseExact then s.toList else lowercase s.toList

/-- The order of a JSON value against a typed one; none when it is not of that type. -/
def TypedValue.orderFrom? (literal : TypedValue) (caseExact : Bool) (v : Json) : Option Ordering :=
  match literal with
  | .null => none
  | .bool b => v.bool?.map (compare · b)
  | .integer n => v.int64?.map (compare · n)
  | .decimal d => v.decimal?.map (Decimal.order · d)
  | .dateTime t => v.instant?.map (Instant.order · t)
  | .text t => v.string?.map fun s => orderText (comparedText caseExact s) (comparedText caseExact t)

/-- Whether a text occurs in another. -/
def occursIn (t : List Char) : List Char → Bool
  | [] => t.isEmpty
  | c :: cs => t.isPrefixOf (c :: cs) || occursIn t cs

/-- Whether an operator of part matching holds between two texts. -/
def CompareOp.matchesPart (op : CompareOp) (s t : List Char) : Bool :=
  match op with
  | .co => occursIn t s
  | .sw => t.isPrefixOf s
  | _ => t.isSuffixOf s

/-- Whether an order satisfies an operator. -/
def CompareOp.admits (op : CompareOp) (o : Ordering) : Bool :=
  match op with
  | .eq => o == .eq
  | .ne => o != .eq
  | .gt => o == .gt
  | .ge => o != .lt
  | .lt => o == .lt
  | .le => o != .gt
  | .co | .sw | .ew => false

/-- Whether a JSON value stands in a relation to a typed one. -/
def TypedValue.test (literal : TypedValue) (op : CompareOp) (caseExact : Bool) (v : Json) : Bool :=
  if op.isSubstring then
    match v.string?, literal with
    | some s, .text t => op.matchesPart (comparedText caseExact s) (comparedText caseExact t)
    | _, _ => false
  else (literal.orderFrom? caseExact v).any op.admits

end Roster
