import Roster.Text.Slice
import Roster.Width
import Roster.Wire

/-!
Requests and responses. Paths, parameters and bodies are texts that have been decoded already.
-/

namespace Roster

structure Request where
  method : String
  path : String
  parameters : List (String × String)
  headers : List (String × String)
  body : String
deriving DecidableEq, Repr, Inhabited

/-- An answer; `isScim` says that its content type is the protocol's own. -/
structure Response where
  status : Nat
  isScim : Bool
  etag : Option String
  location : Option String
  body : Option Json
deriving Repr, Inhabited

/-- A character of a header that counts as text. -/
def isHeaderChar (c : Char) : Bool :=
  c == '\t' || (32 ≤ c.toNat && c.toNat < 127)

def isHeaderText (s : String) : Bool :=
  s.toList.all isHeaderChar

namespace Request

/-- The first header of a name, in whatever case. -/
def header? (r : Request) (name : String) : Option String :=
  (r.headers.find? fun h => sameName h.1 name).map (·.2)

/-- The URL that a version is served under, as the client or a proxy before it sees it. -/
def baseUrl (r : Request) (version : ProtocolVersion) : String :=
  let scheme := ((r.header? "x-forwarded-proto").filter isHeaderText).getD "http"
  let host := (r.header? "x-forwarded-host").orElse fun _ => r.header? "host"
  scheme ++ "://" ++ (host.filter isHeaderText).getD "localhost" ++ version.root

/-- The length of the body that the request states. -/
def statedLength? (r : Request) : Option Nat :=
  (r.header? "content-length").bind fun s =>
    let digits := match s.toList with
      | '+' :: digits => digits
      | digits => digits
    let n := decimalValue digits
    if digits.isEmpty || !digits.all isDigit || twoTo 64 ≤ n then none else some n

/-- The bytes of a body that a handler reads at most, whatever the limit of the server. -/
def greatestBody : Nat := 2 * 1024 * 1024

/-- Whether the stated length is over a limit. -/
def isRefused (r : Request) (limit : Nat) : Bool :=
  r.statedLength?.any (limit < ·)

/-- The body, if it keeps to a limit and to the stated length. -/
def body? (r : Request) (limit : Nat) : Option String :=
  let limit := min (min limit greatestBody) (r.statedLength?.getD limit)
  if r.body.utf8ByteSize ≤ limit then some r.body else none

end Request

namespace Response

/-- A response with nothing in it. -/
def bare (status : Nat) : Response := ⟨status, false, none, none, none⟩

/-- A document in a format of its own. -/
def plain (status : Nat) (body : Json) : Response := ⟨status, false, none, none, some body⟩

/-- A document of the protocol. -/
def document (status : Nat) (body : Json) : Response := ⟨status, true, none, none, some body⟩

/-- The response with headers, each if its value is a text. -/
def withHeaders (r : Response) (etag location : Option String) : Response :=
  { r with etag := etag.filter isHeaderText, location := location.filter isHeaderText }

def failure (version : ProtocolVersion) (e : ErrorResponse) : Response :=
  document e.status (version.encodeError e)

def withoutBody (r : Response) : Response := { r with body := none }

end Response

end Roster
