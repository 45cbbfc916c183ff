import Roster.Http.Message
import Roster.ListRequest
import Roster.Width

/-!
Reading the parameters of a request. A name that is read may be given once; others are ignored.
-/

namespace Roster

/-- A whole number of 64 bits, which may have a sign of either kind. -/
def readInt64? (text : String) : Option Int :=
  let (negative, digits) := match text.toList with
    | '-' :: digits => (true, digits)
    | '+' :: digits => (false, digits)
    | digits => (false, digits)
  if digits.isEmpty || !digits.all isDigit then none
  else
    signedWord? (if negative then -decimalValue digits else decimalValue digits)

namespace Request

/-- The value of a parameter, which may be missing; fails when it is given more than once. -/
def parameter? (r : Request) (name : String) : Option (Option String) :=
  match r.parameters.filter fun p => p.1 == name with
  | [] => some none
  | [p] => some (some p.2)
  | _ => none

/-- A number among the parameters. -/
def number? (r : Request) (name : String) : Option (Option Int) :=
  match r.parameter? name with
  | some (some text) => (readInt64? text).map some
  | some none => some none
  | none => none

/-- The attributes to show, and those to leave out. -/
def shown? (r : Request) : Option (Option String × Option String) := do
  let attributes ← r.parameter? "attributes"
  let excluded ← r.parameter? "excludedAttributes"
  some (attributes, excluded)

/-- What the parameters ask of a list. -/
def list? (r : Request) : Option ListRequest := do
  let filter ← r.parameter? "filter"
  let startIndex ← r.number? "startIndex"
  let count ← r.number? "count"
  let sortBy ← r.parameter? "sortBy"
  let sortOrder ← r.parameter? "sortOrder"
  let (attributes, excluded) ← r.shown?
  some ⟨filter, startIndex.getD 1, count, sortBy, sortOrder, attributes, excluded⟩

end Request

end Roster
