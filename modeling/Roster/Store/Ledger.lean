import Roster.Store.Call

/-!
The plain account of a store: a list of resources in the order of their insertion, each with the
kind and the identifier under which it was added.
-/

namespace Roster

structure Line where
  kind : Kind
  id : String
  resource : Json
deriving Repr, Inhabited

abbrev Ledger := List Line

namespace Ledger

/-- Whether a line is the one of a kind and an identifier. -/
def isAt (kind : Kind) (id : String) (line : Line) : Bool :=
  line.kind == kind && line.id == id

def get? (l : Ledger) (kind : Kind) (id : String) : Option Json :=
  (l.find? (isAt kind id)).map (·.resource)

def resources (l : Ledger) (kind : Kind) : List Json :=
  (l.filter (·.kind == kind)).map (·.resource)

def list (l : Ledger) (kind : Kind) (filter : Option Query) : List Json :=
  (l.resources kind).filter fun v => filter.all (·.holds v)

/-- The resources that a search may find. -/
def candidates (l : Ledger) (p : Probe) : List Json :=
  (l.filter fun line => line.kind == p.kind && p.finds line.id line.resource).map (·.resource)

def insert (l : Ledger) (kind : Kind) (resource : Json) : Except StoreError Ledger :=
  match resource.identifier? with
  | none => .error .noIdentifier
  | some id => if l.any (isAt kind id) then .error (.conflict kind id)
    else .ok (l ++ [⟨kind, id, resource⟩])

def update (l : Ledger) (kind : Kind) (id : String) (resource : Json) :
    Except StoreError Ledger :=
  if l.any (isAt kind id) then
    .ok (l.map fun line => if isAt kind id line then { line with resource } else line)
  else .error .notFound

def delete (l : Ledger) (kind : Kind) (id : String) : Except StoreError Ledger :=
  if l.any (isAt kind id) then .ok (l.filter fun line => !isAt kind id line) else .error .notFound

end Ledger

end Roster
