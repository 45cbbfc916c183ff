import Roster.Schema.Core

/-!
The two kinds of resource and the registry of extension schemas. A URN names a schema in whatever
case; the attributes of a kind are the common ones and those of its core schema.
-/

namespace Roster

inductive Kind where
  | user
  | group
deriving DecidableEq, Repr, Inhabited

namespace Kind

def name : Kind → String
  | .user => "User"
  | .group => "Group"

/-- The collection's path below the base URL. -/
def endpoint : Kind → String
  | .user => "/Users"
  | .group => "/Groups"

def coreSchema : Kind → Schema
  | .user => Schema.user
  | .group => Schema.group

def ofName? (name : String) : Option Kind :=
  if sameName name "user" then some .user
  else if sameName name "group" then some .group
  else none

/-- The top-level attributes, without those of extensions. -/
def attributes (kind : Kind) : List Attribute :=
  Schema.common ++ kind.coreSchema.attributes

def attribute? (kind : Kind) (name : String) : Option Attribute :=
  findAttribute? kind.attributes name

/-- Whether the kind has an attribute of this name that only the server writes. -/
def isReadOnly (kind : Kind) (name : String) : Bool :=
  (kind.attribute? name).any Attribute.isReadOnly

end Kind

/-- An extension schema registered for one kind; a required one must be declared by every
resource of that kind. -/
structure Extension where
  kind : Kind
  schema : Schema
  required : Bool
deriving Repr, Inhabited

/-- Extensions in the order of their registration. -/
structure Registry where
  extensions : List Extension
deriving Repr, Inhabited

namespace Registry

/-- No extensions. -/
def core : Registry := ⟨[]⟩

/-- Registers an extension, in place of one of the same kind and identifier. -/
def extend (r : Registry) (e : Extension) : Registry :=
  ⟨r.extensions.filter (fun x => !(x.kind == e.kind && x.schema.id == e.schema.id)) ++ [e]⟩

/-- The optional Enterprise User extension alone. -/
def standard : Registry := core.extend ⟨.user, Schema.enterpriseUser, false⟩

/-- The extensions of a kind. -/
def extensionsFor (r : Registry) (kind : Kind) : List Extension :=
  r.extensions.filter (·.kind == kind)

/-- The extension of a kind that a URN names. -/
def extension? (r : Registry) (kind : Kind) (urn : String) : Option Schema :=
  (r.extensions.find? fun e => e.kind == kind && sameName e.schema.id urn).map (·.schema)

/-- Whether a URN names an extension of any kind. -/
def isKnownExtension (r : Registry) (urn : String) : Bool :=
  r.extensions.any fun e => sameName e.schema.id urn

/-- The identifiers that every resource of a kind must declare. -/
def requiredExtensions (r : Registry) (kind : Kind) : List String :=
  ((r.extensionsFor kind).filter (·.required)).map (·.schema.id)

end Registry

/-- Whether a URN names the core schema of a kind. -/
def isCoreSchema (urn : String) : Bool :=
  sameName Urn.user urn || sameName Urn.group urn

/-- Where an attribute name is looked up: at the top of a resource, or among the members of an
extension or a complex attribute. -/
inductive Scope where
  | resource
  | members (attributes : List Attribute)

/-- The attributes that a scope of a kind holds. -/
def Scope.attributes (kind : Kind) : Scope → List Attribute
  | .resource => kind.attributes
  | .members attributes => attributes

def Scope.find? (kind : Kind) (scope : Scope) (name : String) : Option Attribute :=
  findAttribute? (scope.attributes kind) name

end Roster
