import Roster.Query.Condition
import Roster.Schema.Registry

/-!
The calls that a store answers, each with the type of its reply.
-/

namespace Roster

/-- Why a store refuses a change. -/
inductive StoreError where
  | notFound
  | conflict (kind : Kind) (id : String)
  | noIdentifier
deriving DecidableEq, Repr, Inhabited

/-- What is said of a resource that exists already. -/
def conflictText (kind : Kind) (id : String) : String :=
  kind.name ++ " '" ++ id ++ "' already exists"

def StoreError.message : StoreError → String
  | .notFound => "Not found"
  | .conflict kind id => "Conflict: " ++ conflictText kind id
  | .noIdentifier => "Validation error: resource has no id"

/-- A search for a resource by the text of one of its members. -/
structure Probe where
  kind : Kind
  name : String
  value : String
  caseExact : Bool
  apartFrom : Option String
deriving DecidableEq, Repr, Inhabited

/-- Whether the search is for a resource that is held under an identifier. -/
def Probe.finds (p : Probe) (id : String) (resource : Json) : Bool :=
  p.apartFrom != some id &&
    ((resource.member? p.name).bind Json.string?).any fun s =>
      if p.caseExact then s == p.value else sameName s p.value

inductive Call where
  | get (kind : Kind) (id : String)
  | list (kind : Kind) (filter : Option Query)
  | count (kind : Kind)
  | find (probe : Probe)
  | insert (kind : Kind) (resource : Json)
  | update (kind : Kind) (id : String) (resource : Json)
  | delete (kind : Kind) (id : String)
deriving Repr, Inhabited

abbrev Call.Reply : Call → Type
  | .get _ _ => Option Json
  | .list _ _ => List Json
  | .count _ => Nat
  | .find _ => Option Json
  | .insert _ _ => Except StoreError Json
  | .update _ _ _ => Except StoreError Json
  | .delete _ _ => Except StoreError Unit

/-- The identifier of a resource. -/
def Json.identifier? (resource : Json) : Option String :=
  (resource.get? "id").bind Json.string?

end Roster
