import Roster.Json.Parser
import Roster.Json.Record
import Roster.Text.Ascii

/-!
What a client asks of a list of resources, by parameters or by the body of a search.
-/

namespace Roster

structure ListRequest where
  filter : Option String
  startIndex : Int
  count : Option Int
  sortBy : Option String
  sortOrder : Option String
  attributes : Option String
  excludedAttributes : Option String
deriving DecidableEq, Repr, Inhabited

namespace ListRequest

/-- The whole list. -/
def all : ListRequest := ⟨none, 1, none, none, none, none, none⟩

def isDescending (q : ListRequest) : Bool :=
  q.sortOrder.any (sameName "descending")

/-- Reads parameters. -/
def ofJson? (v : Json) : Option ListRequest := do
  let r ← Record.ofJson? ["filter", "startIndex", "count", "sortBy", "sortOrder", "attributes",
    "excludedAttributes"] v
  let filter ← r.optional "filter" Json.string?
  let startIndex ← r.withDefault "startIndex" 1 Json.int64?
  let count ← r.optionalDefault "count" Json.int64?
  let sortBy ← r.optional "sortBy" Json.string?
  let sortOrder ← r.optional "sortOrder" Json.string?
  let attributes ← r.optional "attributes" Json.string?
  let excluded ← r.optional "excludedAttributes" Json.string?
  some ⟨filter, startIndex, count, sortBy, sortOrder, attributes, excluded⟩

/-- Listed names in one text. -/
def joinNames? (names : List String) : Option String :=
  if names.isEmpty then none else some (",".intercalate names)

end ListRequest

/-- The body of a search, which declares itself and lists attributes one by one. -/
structure SearchRequest where
  schemas : List String
  list : ListRequest
deriving DecidableEq, Repr, Inhabited

namespace SearchRequest

/-- The fields of a search. -/
def fields : List String :=
  ["schemas", "attributes", "excludedAttributes", "filter", "sortBy", "sortOrder", "startIndex",
    "count"]

def ofJson? (v : Json) : Option SearchRequest := do
  let r ← Record.ofJson? fields v
  let schemas ← r.withDefault "schemas" [] Json.strings?
  let attributes ← r.withDefault "attributes" [] Json.strings?
  let excluded ← r.withDefault "excludedAttributes" [] Json.strings?
  let filter ← r.optional "filter" Json.string?
  let sortBy ← r.optional "sortBy" Json.string?
  let sortOrder ← r.optional "sortOrder" Json.string?
  let startIndex ← r.optional "startIndex" Json.int64?
  let count ← r.optional "count" Json.int64?
  some ⟨schemas, ⟨filter, startIndex.getD 1, count, sortBy, sortOrder,
    ListRequest.joinNames? attributes, ListRequest.joinNames? excluded⟩⟩

/-- Reads the text of a search. -/
def parse? (text : String) : Option SearchRequest :=
  (Json.parseRecord? fields text).bind ofJson?

end SearchRequest

end Roster
