import Roster.Instant.Basic
import Roster.Json.Basic

/-!
The metadata of a resource, and its form as the member `meta`.
-/

namespace Roster

structure Meta where
  resourceType : String
  created : Option Instant
  lastModified : Option Instant
  location : Option String
  version : Option String
deriving DecidableEq, Repr, Inhabited

namespace Meta

def make (resourceType : String) : Meta := ⟨resourceType, none, none, none, none⟩

/-- The metadata of a resource created at an instant. -/
def createdAt (resourceType : String) (now : Instant) : Meta :=
  { make resourceType with created := some now, lastModified := some now }

def withLocation (m : Meta) (location : String) : Meta := { m with location := some location }

def toJson (m : Meta) : Json :=
  Json.ofPresent
    [ ("resourceType", some (.str m.resourceType)),
      ("created", m.created.map fun t => .str t.toText),
      ("lastModified", m.lastModified.map fun t => .str t.toText),
      ("location", m.location.map .str),
      ("version", m.version.map .str) ]

end Meta

end Roster
