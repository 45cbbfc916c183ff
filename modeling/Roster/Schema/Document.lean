import Roster.Instant.Loose
import Roster.Json.Record
import Roster.Meta
import Roster.Schema.Registry

/-!
Schemas and resource types as JSON documents: reading a schema, and the documents that a server
publishes under its base URL.
-/

namespace Roster

def AttributeType.ofJson? : Json → Option AttributeType :=
  Json.choice? <| [AttributeType.string, .boolean, .decimal, .integer, .dateTime, .reference,
    .complex, .binary].map fun t => (t.name, t)

def Mutability.ofJson? : Json → Option Mutability :=
  Json.choice? <| [Mutability.readOnly, .readWrite, .immutable, .writeOnly].map fun m => (m.name, m)

def Returned.ofJson? : Json → Option Returned :=
  Json.choice? <| [Returned.always, .never, .byDefault, .onRequest].map fun r => (r.name, r)

def Uniqueness.ofJson? : Json → Option Uniqueness :=
  Json.choice? <| [Uniqueness.none, .server, .global].map fun u => (u.name, u)

/-- Reads an attribute definition whose sub-attributes nest at most `depth` deep. -/
def Attribute.ofJson? : Nat → Json → Option Attribute
  | 0, _ => none
  | depth + 1, v => do
    let r ← Record.ofJson? ["name", "type", "multiValued", "description", "required", "caseExact",
      "mutability", "returned", "uniqueness", "subAttributes"] v
    let name ← r.required "name" Json.string?
    let type ← r.required "type" AttributeType.ofJson?
    let multiValued ← r.required "multiValued" Json.bool?
    let description ← r.optional "description" Json.string?
    let required ← r.required "required" Json.bool?
    let caseExact ← r.optional "caseExact" Json.bool?
    let mutability ← r.required "mutability" Mutability.ofJson?
    let returned ← r.required "returned" Returned.ofJson?
    let uniqueness ← r.optional "uniqueness" Uniqueness.ofJson?
    let subAttributes ← r.withDefault "subAttributes" [] (Json.listOf? (Attribute.ofJson? depth))
    some ⟨name, type, multiValued, description, required, caseExact, mutability, returned,
      uniqueness, subAttributes⟩

/-- Whether a value is the metadata of a document. -/
def isMetaDocument (v : Json) : Option Unit := do
  let time (v : Json) : Option Instant := v.string?.bind Instant.parseLoose?
  let r ← Record.ofJson? ["resourceType", "created", "lastModified", "location", "version"] v
  let _ ← r.required "resourceType" Json.string?
  let _ ← r.optional "created" time
  let _ ← r.optional "lastModified" time
  let _ ← r.optional "location" Json.string?
  let _ ← r.optional "version" Json.string?
  some ()

/-- Reads a schema. Its own metadata is checked and left out: a server publishes its own. -/
def Schema.ofJson? (v : Json) : Option Schema := do
  let r ← Record.ofJson? ["schemas", "id", "name", "description", "attributes", "meta"] v
  let schemas ← r.required "schemas" Json.strings?
  let id ← r.required "id" Json.string?
  let name ← r.required "name" Json.string?
  let description ← r.optional "description" Json.string?
  let attributes ← r.required "attributes" (Json.listOf? (Attribute.ofJson? 128))
  let _ ← r.optional "meta" isMetaDocument
  some ⟨schemas, id, name, description, attributes⟩

mutual

def Attribute.toJson (a : Attribute) : Json :=
  match a with
  | ⟨name, type, multiValued, description, required, caseExact, mutability, returned, uniqueness,
      subAttributes⟩ =>
    Json.ofPresent
      [ ("name", some (.str name)),
        ("type", some (.str type.name)),
        ("multiValued", some (.bool multiValued)),
        ("description", description.map .str),
        ("required", some (.bool required)),
        ("caseExact", caseExact.map .bool),
        ("mutability", some (.str mutability.name)),
        ("returned", some (.str returned.name)),
        ("uniqueness", uniqueness.map fun u => .str u.name),
        ("subAttributes",
          if subAttributes.isEmpty then none else some (.arr (attributesJson subAttributes))) ]

def attributesJson (attributes : List Attribute) : List Json :=
  match attributes with
  | [] => []
  | a :: rest => a.toJson :: attributesJson rest

end

def textsJson (texts : List String) : Json := .arr (texts.map .str)

/-- The document of a schema at a location. -/
def Schema.toJson (s : Schema) (baseUrl : String) : Json :=
  Json.ofPresent
    [ ("schemas", some (textsJson s.schemas)),
      ("id", some (.str s.id)),
      ("name", some (.str s.name)),
      ("description", s.description.map .str),
      ("attributes", some (.arr (attributesJson s.attributes))),
      ("meta", some ((Meta.make "Schema").withLocation (baseUrl ++ "/Schemas/" ++ s.id)).toJson) ]

namespace Registry

/-- The core schemas and, once each, the extensions. -/
def schemas (r : Registry) : List Schema :=
  r.extensions.foldl
    (fun known e => if known.any (·.id == e.schema.id) then known else known ++ [e.schema])
    [Schema.user, Schema.group]

/-- The document of a kind of resource. -/
def resourceTypeJson (r : Registry) (baseUrl : String) (kind : Kind) : Json :=
  let extensions := (r.extensionsFor kind).map fun e =>
    Json.ofMembers [("schema", .str e.schema.id), ("required", .bool e.required)]
  Json.ofPresent
    [ ("schemas", some (textsJson [Urn.resourceType])),
      ("id", some (.str kind.name)),
      ("name", some (.str kind.name)),
      ("endpoint", some (.str kind.endpoint)),
      ("description", kind.coreSchema.description.map .str),
      ("schema", some (.str kind.coreSchema.id)),
      ("schemaExtensions", if extensions.isEmpty then none else some (.arr extensions)),
      ("meta", some
        ((Meta.make "ResourceType").withLocation
          (baseUrl ++ "/ResourceTypes/" ++ kind.name)).toJson) ]

end Registry

end Roster
