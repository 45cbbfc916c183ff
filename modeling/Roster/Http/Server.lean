import Roster.Http.Parameters
import Roster.Http.Route
import Roster.Schema.Document
import Roster.Service.Change
import Roster.Service.Query
import Roster.Settings.Document

/-!
Answering requests. A response comes from a script on the store, so a request that fails before
its write leaves the store as it was.
-/

namespace Roster

/-- What the world gives to a request: an identifier that is new, and readings of the clock. -/
structure Fresh where
  id : String
  clock : Nat → Instant

structure Server where
  settings : Settings
  service : Service

namespace Server

def ofSettings (s : Settings) : Server := ⟨s, Service.ofSettings s.protocol⟩

/-- What a server says of its own version. -/
def release : String := "0.1.0"

/-- How many resources there are. -/
def health : Script Response := do
  let users ← Script.perform (.count .user)
  let groups ← Script.perform (.count .group)
  pure <| Response.plain 200 <| Json.ofMembers
    [ ("status", .str "healthy"),
      ("version", .str release),
      ("resources", Json.ofMembers
        [("users", Json.ofNat users), ("groups", Json.ofNat groups)]) ]

/-! ### Discovery -/

/-- A list of documents. -/
def documents (version : ProtocolVersion) (items : List Json) : Response :=
  .document 200 (version.encodeList items items.length 1)

/-- A document that may not be there. -/
def documentOr (version : ProtocolVersion) (missing : String) (v : Option Json) : Response :=
  match v with
  | some v => .document 200 v
  | none => .failure version (.notFound missing)

/-- What the server offers, with its location. -/
def providerDocument (sv : Server) (baseUrl : String) : Json :=
  let m := (Meta.make "ServiceProviderConfig").withLocation (baseUrl ++ "/ServiceProviderConfig")
  sv.settings.protocol.providerJson.put "meta" m.toJson

/-- The answer to a request for what the server knows; none for other endpoints. -/
def discover? (sv : Server) (version : ProtocolVersion) (baseUrl : String) :
    Endpoint → Option Response
  | .provider => some (.document 200 (sv.providerDocument baseUrl))
  | .resourceTypes => some <| documents version <|
      [Kind.user, .group].map (sv.service.registry.resourceTypeJson baseUrl)
  | .resourceType name => some <| documentOr version ("ResourceType '" ++ name ++ "' not found") <|
      ([Kind.user, .group].find? fun kind => sameName kind.name name).map
        (sv.service.registry.resourceTypeJson baseUrl)
  | .schemas => some (documents version (sv.service.registry.schemas.map (·.toJson baseUrl)))
  | .schema urn => some <| documentOr version ("Schema '" ++ urn ++ "' not found") <|
      (sv.service.registry.schemas.find? fun s => sameName s.id urn).map (·.toJson baseUrl)
  | _ => none

/-! ### Resources -/

/-- A request on resources of a kind: where it came in, and the attributes it asks for. -/
structure Context where
  kind : Kind
  version : ProtocolVersion
  baseUrl : String
  shown : Option String × Option String

/-- A text of the metadata of a resource. -/
def metaText? (resource : Json) (name : String) : Option String :=
  ((resource.get? "meta").bind fun m => m.get? name).bind Json.string?

/-- A resource as an answer. A new one is given its location. -/
def present (sv : Server) (c : Context) (created : Bool) (resource : Json) : Response :=
  match sv.service.projectionOf c.kind c.shown.1 c.shown.2 with
  | .error e => .failure c.version e.response
  | .ok p =>
    let body := c.version.encode (p.apply sv.service.registry c.kind resource)
    (Response.document (if created then 201 else 200) body).withHeaders
      (metaText? resource "version")
      (if created then metaText? resource "location" else none)

/-- The outcome of work as an answer. -/
def answer {α : Type} (c : Context) (work : Task α) (respond : α → Response) : Script Response := do
  match ← ExceptT.run work with
  | .ok v => pure (respond v)
  | .error e => pure (.failure c.version e.response)

/-- The page that a request asks for. -/
def list (sv : Server) (c : Context) (q : ListRequest) : Script Response :=
  match sv.service.projectionOf c.kind q.attributes q.excludedAttributes with
  | .error e => pure (.failure c.version e.response)
  | .ok p => answer c (sv.service.query c.kind q c.baseUrl) fun page =>
    let resources := page.resources.map fun v =>
      c.version.encode (p.apply sv.service.registry c.kind v)
    .document 200 (c.version.encodeList resources page.total page.startIndex)

/-- A body that is not what it should be. -/
def unreadable (c : Context) (what : String) : Response :=
  .failure c.version (.ofType .invalidSyntax (what ++ ": not of the expected form"))

/-- The page that the body of a search asks for. -/
def search (sv : Server) (c : Context) (body : String) : Script Response :=
  match SearchRequest.parse? body with
  | none => pure (unreadable c "Invalid search request")
  | some q =>
    if c.version = .v2 ∧ !q.schemas.any (sameName Urn.searchRequest) then
      pure <| .failure c.version <| .ofType .invalidSyntax
        ("search request must declare '" ++ Urn.searchRequest ++ "'")
    else sv.list c q.list

/-- The body of a request as a resource. -/
def bodyOf? (c : Context) (body : String) : Option Json :=
  (Json.parse? body).map (c.version.decode c.kind.coreSchema.id)

def create (sv : Server) (c : Context) (fresh : Fresh) (body : String) : Script Response :=
  match bodyOf? c body with
  | none => pure (unreadable c "Invalid JSON")
  | some v => answer c
      (sv.service.create c.kind v c.baseUrl fresh.id (fresh.clock 0)).task (sv.present c true)

def get (sv : Server) (c : Context) (id : String) : Script Response :=
  answer c (Service.get c.kind id c.baseUrl) (sv.present c false)

def replace (sv : Server) (c : Context) (fresh : Fresh) (id body : String) : Script Response :=
  match bodyOf? c body with
  | none => pure (unreadable c "Invalid JSON")
  | some v => answer c
      (sv.service.replace c.kind id v c.baseUrl (fresh.clock 0)).task (sv.present c false)

def patch (sv : Server) (c : Context) (fresh : Fresh) (id body : String) : Script Response :=
  match PatchRequest.parse? body with
  | none => pure (unreadable c "Invalid PATCH request")
  | some request => answer c
      (sv.service.patch c.kind id request c.baseUrl (fresh.clock 0)).task (sv.present c false)

def delete (sv : Server) (c : Context) (fresh : Fresh) (id : String) : Script Response :=
  answer c (sv.service.delete c.kind id fresh.clock).task fun _ => .bare 204

/-! ### Dispatch -/

/-- Goes on with the body of a request, if it is not too long. -/
def withBody (sv : Server) (r : Request) (next : String → Script Response) : Script Response :=
  match r.body? sv.settings.server.bodyLimit with
  | some body => next body
  | none => pure (.bare 413)

/-- Goes on with the attributes that parameters ask for, if these can be read. -/
def withShown (c : Context) (r : Request) (next : Context → Script Response) : Script Response :=
  match r.shown? with
  | some shown => next { c with shown }
  | none => pure (.bare 400)

/-- The method that answers a request: a request for the head alone is answered as one for all. -/
def methodOf (r : Request) : String :=
  if r.method == "HEAD" then "GET" else r.method

/-- Answers a request on resources. -/
def serve (sv : Server) (r : Request) (fresh : Fresh) (version : ProtocolVersion) :
    Endpoint → Script Response
  | .collection kind =>
    let c : Context := ⟨kind, version, r.baseUrl version, none, none⟩
    match methodOf r with
    | "GET" =>
      match r.list? with
      | some q => sv.list c q
      | none => pure (.bare 400)
    | "POST" => withShown c r fun c => sv.withBody r fun body => sv.create c fresh body
    | _ => pure (.bare 405)
  | .search kind =>
    let c : Context := ⟨kind, version, r.baseUrl version, none, none⟩
    if methodOf r == "POST" then sv.withBody r fun body => sv.search c body
    else pure (.bare 405)
  | .resource kind id =>
    let c : Context := ⟨kind, version, r.baseUrl version, none, none⟩
    match methodOf r with
    | "GET" => withShown c r fun c => sv.get c id
    | "PUT" => withShown c r fun c => sv.withBody r fun body => sv.replace c fresh id body
    | "PATCH" => withShown c r fun c => sv.withBody r fun body => sv.patch c fresh id body
    | "DELETE" => sv.delete c fresh id
    | _ => pure (.bare 405)
  | endpoint =>
    match sv.discover? version (r.baseUrl version) endpoint with
    | some response => pure (if methodOf r == "GET" then response else .bare 405)
    | none => pure (.bare 404)

/-- Answers a request to a route. -/
def route (sv : Server) (r : Request) (fresh : Fresh) : Option Route → Script Response
  | none => pure (.bare 404)
  | some .health => if methodOf r == "GET" then health else pure (.bare 405)
  | some .liveness => pure (.bare (if methodOf r == "GET" then 200 else 405))
  | some (.versioned version endpoint) => sv.serve r fresh version endpoint

/-- Answers a request. -/
def handle (sv : Server) (r : Request) (fresh : Fresh) : Script Response :=
  if r.isRefused sv.settings.server.bodyLimit then pure (.bare 413)
  else do
    let response ← sv.route r fresh (Route.ofPath? sv.settings.protocol.legacy r.path)
    pure (if r.method == "HEAD" then response.withoutBody else response)

end Server

end Roster
