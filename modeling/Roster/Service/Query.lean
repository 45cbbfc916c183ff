import Roster.ListRequest
import Roster.Projection
import Roster.Query.SortKey
import Roster.Service.Basic
import Roster.Sorting
import Roster.Width

/-!
Reading resources: one by its identifier, or a page of those that a request asks for.
-/

namespace Roster

/-- A page of resources, out of `total`, the first of which has the index `startIndex`. -/
structure Page where
  resources : List Json
  total : Nat
  startIndex : Nat
deriving Repr, Inhabited

namespace Service

/-- The greatest index and the greatest count. -/
def greatestIndex : Nat := twoTo 32 - 1

/-- A resource as it is shown. -/
def get (kind : Kind) (id : String) (baseUrl : String) : Task Json := do
  let stored ← Task.fetch kind id
  decorate kind stored baseUrl

/-- A parameter that is not blank. -/
def given? (s : Option String) : Option String :=
  s.filter fun s => !isBlankText s

/-- The filter that a request asks for. -/
def filterOf (s : Service) (kind : Kind) (q : ListRequest) : Except ServiceError (Option Query) :=
  match given? q.filter with
  | none => .ok none
  | some text =>
    if !s.protocol.filter then .error (.notOffered .filtering)
    else match (Expression.parse s.registry text).bind (·.compile s.registry kind) with
      | .ok query => .ok (some query)
      | .error e => .error (.filter e)

/-- The sort key that a request asks for. -/
def sortKeyOf (s : Service) (kind : Kind) (q : ListRequest) :
    Except ServiceError (Option SortKey) :=
  match given? q.sortBy with
  | none => .ok none
  | some text =>
    if !s.protocol.sort then .error (.notOffered .sorting)
    else match (Expression.parse s.registry text).bind (SortKey.compile s.registry kind) with
      | .ok key => .ok (some key)
      | .error e => .error (.invalidValue (.sortBy e))

/-- Whether one resource must stand before another. -/
def precedes (key : SortKey) (descending : Bool) (a b : Json) : Bool :=
  (if descending then (key.order a b).swap else key.order a b) == .lt

/-- Resources in the order of a key; equal ones keep their places. The method of sorting matters
only when some value cannot be read. -/
def sorted (key : Option SortKey) (descending : Bool) (resources : List Json) : List Json :=
  match key with
  | none => resources
  | some key =>
    if resources.all key.isReadable then Sorting.placed (precedes key descending) resources
    else Sorting.arranged (precedes key descending) resources

/-- The index of the first resource of a page. -/
def startOf (q : ListRequest) : Nat :=
  min (max q.startIndex 1).toNat greatestIndex

/-- The size of a page. -/
def sizeOf (s : Service) (q : ListRequest) : Nat :=
  let count := match q.count with
    | none => s.protocol.defaultCount
    | some count => min count.toNat greatestIndex
  min count s.protocol.maxResults

/-- The page that a request asks for. -/
def pageOf (s : Service) (q : ListRequest) (resources : List Json) : Page :=
  let start := startOf q
  ⟨(resources.drop (start - 1)).take (s.sizeOf q), resources.length % twoTo 32, start⟩

/-- Shows resources one by one. -/
def decorateAll (kind : Kind) (baseUrl : String) : List Json → Task (List Json)
  | [] => pure []
  | resource :: rest => do
    let shown ← decorate kind resource baseUrl
    let others ← decorateAll kind baseUrl rest
    pure (shown :: others)

/-- The resources that a request asks for. Filters and sort keys see them as they are shown. -/
def query (s : Service) (kind : Kind) (q : ListRequest) (baseUrl : String) : Task Page := do
  let filter ← Task.ofExcept (s.filterOf kind q)
  let key ← Task.ofExcept (s.sortKeyOf kind q)
  let stored ← Task.list kind
  let shown ← decorateAll kind baseUrl stored
  let wanted := shown.filter fun v => filter.all (·.holds v)
  pure (s.pageOf q (sorted key q.isDescending wanted))

/-- The projection that two lists of attributes ask for. -/
def projectionOf (s : Service) (kind : Kind) (attributes excluded : Option String) :
    Except ServiceError Projection :=
  match Projection.parse s.registry kind attributes excluded with
  | .ok p => .ok p
  | .error e => .error (.invalidValue (.projection e))

end Service

end Roster
