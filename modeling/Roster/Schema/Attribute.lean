import Roster.Text.Ascii

/-!
Attribute definitions: type, number of values, and the characteristics that decide how a value is
compared, written and returned. Definitions are found by name in whatever case.
-/

namespace Roster

inductive AttributeType where
  | string
  | boolean
  | decimal
  | integer
  | dateTime
  | reference
  | complex
  | binary
deriving DecidableEq, Repr, Inhabited

def AttributeType.name : AttributeType → String
  | .string => "string"
  | .boolean => "boolean"
  | .decimal => "decimal"
  | .integer => "integer"
  | .dateTime => "dateTime"
  | .reference => "reference"
  | .complex => "complex"
  | .binary => "binary"

inductive Mutability where
  | readOnly
  | readWrite
  | immutable
  | writeOnly
deriving DecidableEq, Repr, Inhabited

def Mutability.name : Mutability → String
  | .readOnly => "readOnly"
  | .readWrite => "readWrite"
  | .immutable => "immutable"
  | .writeOnly => "writeOnly"

inductive Returned where
  | always
  | never
  | byDefault
  | onRequest
deriving DecidableEq, Repr, Inhabited

def Returned.name : Returned → String
  | .always => "always"
  | .never => "never"
  | .byDefault => "default"
  | .onRequest => "request"

inductive Uniqueness where
  | none
  | server
  | global
deriving DecidableEq, Repr, Inhabited

def Uniqueness.name : Uniqueness → String
  | .none => "none"
  | .server => "server"
  | .global => "global"

/-- The definition of an attribute. Only a complex one has sub-attributes of use. -/
structure Attribute where
  name : String
  type : AttributeType
  multiValued : Bool
  description : Option String
  required : Bool
  caseExact : Option Bool
  mutability : Mutability
  returned : Returned
  uniqueness : Option Uniqueness
  subAttributes : List Attribute
deriving Repr, Inhabited

/-- What paths and filters need to know of an attribute. -/
structure Traits where
  type : AttributeType
  multiValued : Bool
  caseExact : Bool
  mutability : Mutability
  returned : Returned
  required : Bool
deriving DecidableEq, Repr, Inhabited

/-- The traits of an extension taken as one object. -/
def Traits.extension : Traits :=
  ⟨.complex, false, false, .readWrite, .byDefault, false⟩

/-- The first definition of this name, letter case aside. -/
def findAttribute? (attributes : List Attribute) (name : String) : Option Attribute :=
  attributes.find? fun a => sameName a.name name

namespace Attribute

def traits (a : Attribute) : Traits :=
  ⟨a.type, a.multiValued, a.caseExact.getD false, a.mutability, a.returned, a.required⟩

def subAttribute? (a : Attribute) (name : String) : Option Attribute :=
  findAttribute? a.subAttributes name

def isReadOnly (a : Attribute) : Bool :=
  a.mutability == .readOnly

/-- A singular, optional, writable attribute. Texts ignore case, references and binaries do not. -/
def typed (name : String) (type : AttributeType) (description : String) : Attribute where
  name := name
  type := type
  multiValued := false
  description := some description
  required := false
  caseExact := match type with
    | .string => some false
    | .reference | .binary => some true
    | _ => none
  mutability := .readWrite
  returned := .byDefault
  uniqueness := none
  subAttributes := []

def text (name description : String) : Attribute :=
  typed name .string description

def complex (name description : String) (subAttributes : List Attribute) : Attribute :=
  { typed name .complex description with subAttributes }

/-- A list of complex values. -/
def listed (name description : String) (subAttributes : List Attribute) : Attribute :=
  { complex name description subAttributes with multiValued := true }

def asRequired (a : Attribute) : Attribute := { a with required := true }

def withMutability (a : Attribute) (mutability : Mutability) : Attribute := { a with mutability }

def asReadOnly (a : Attribute) : Attribute := a.withMutability .readOnly

def withReturned (a : Attribute) (returned : Returned) : Attribute := { a with returned }

def asCaseExact (a : Attribute) : Attribute := { a with caseExact := some true }

def withUniqueness (a : Attribute) (uniqueness : Uniqueness) : Attribute :=
  { a with uniqueness := some uniqueness }

end Attribute

end Roster
