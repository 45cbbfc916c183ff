import Roster.Schema.Attribute
import Roster.Schema.Urn

/-!
The schemas that every server has: User, Group, the attributes common to all resources, and the
Enterprise User extension.
-/

namespace Roster

structure Schema where
  schemas : List String
  id : String
  name : String
  description : Option String
  attributes : List Attribute
deriving Repr, Inhabited

namespace Schema

def make (id name description : String) (attributes : List Attribute) : Schema :=
  ⟨[Urn.schema], id, name, some description, attributes⟩

def attribute? (s : Schema) (name : String) : Option Attribute :=
  findAttribute? s.attributes name

open Attribute

/-- The sub-attributes of a list of typed values. -/
def valueAttributes (type : AttributeType) : List Attribute :=
  [ typed "value" type "The attribute value",
    text "display" "A human-readable name",
    text "type" "A label indicating the attribute's function",
    typed "primary" .boolean "Indicates the primary value" ]

def user : Schema := make Urn.user "User" "User Account"
  [ ((text "userName" "Unique identifier for the User").asRequired).withUniqueness .server,
    complex "name" "The components of the user's real name"
      [ text "formatted" "The full name",
        text "familyName" "The family name of the User",
        text "givenName" "The given name of the User",
        text "middleName" "The middle name(s) of the User",
        text "honorificPrefix" "The honorific prefix(es) of the User",
        text "honorificSuffix" "The honorific suffix(es) of the User" ],
    text "displayName" "The name of the User, suitable for display",
    text "nickName" "The casual way to address the user",
    typed "profileUrl" .reference "A fully qualified URL pointing to the User's online profile",
    text "title" "The user's title",
    text "userType" "Relationship between the organization and the user",
    text "preferredLanguage" "The User's preferred written or spoken language",
    text "locale" "The User's default location",
    text "timezone" "The User's time zone in the Olson format",
    typed "active" .boolean "The User's administrative status",
    ((text "password" "The User's cleartext password").withMutability .writeOnly).withReturned
      .never,
    listed "emails" "Email addresses for the user" (valueAttributes .string),
    listed "phoneNumbers" "Phone numbers for the User" (valueAttributes .string),
    listed "ims" "Instant messaging addresses for the User" (valueAttributes .string),
    listed "photos" "URLs of photos of the User" (valueAttributes .reference),
    listed "addresses" "A physical mailing address for this User"
      [ text "formatted" "The full mailing address",
        text "streetAddress" "The full street address component",
        text "locality" "The city or locality component",
        text "region" "The state or region component",
        text "postalCode" "The zip code or postal code component",
        text "country" "The country name component",
        text "type" "A label indicating the attribute's function",
        typed "primary" .boolean "Indicates the primary address" ],
    (listed "groups" "A list of groups to which the user belongs"
      [ (text "value" "The identifier of the User's group").asReadOnly,
        (typed "$ref" .reference "The URI of the group").asReadOnly,
        (text "display" "A human-readable name of the group").asReadOnly,
        (text "type" "Direct or indirect membership").asReadOnly ]).asReadOnly,
    listed "entitlements" "A list of entitlements for the User" (valueAttributes .string),
    listed "roles" "A list of roles for the User" (valueAttributes .string),
    listed "x509Certificates" "A list of certificates issued to the User"
      (valueAttributes .binary) ]

def group : Schema := make Urn.group "Group" "Group"
  [ (text "displayName" "A human-readable name for the Group").asRequired,
    listed "members" "A list of members of the Group"
      [ (text "value" "Identifier of the member").withMutability .immutable,
        (typed "$ref" .reference "The URI of the member").withMutability .immutable,
        (text "display" "A human-readable name of the member").withMutability .immutable,
        (text "type" "The type of the member (User or Group)").withMutability .immutable ] ]

def enterpriseUser : Schema := make Urn.enterpriseUser "EnterpriseUser" "Enterprise User"
  [ text "employeeNumber" "Numeric or alphanumeric identifier assigned to a person",
    text "costCenter" "Identifies the name of a cost center",
    text "organization" "Identifies the name of an organization",
    text "division" "Identifies the name of a division",
    text "department" "Identifies the name of a department",
    complex "manager" "The User's manager"
      [ text "value" "The id of the SCIM resource representing the User's manager",
        typed "$ref" .reference "The URI of the SCIM resource representing the User's manager",
        (text "displayName" "The displayName of the User's manager").asReadOnly ] ]

/-- The attributes that every resource has. -/
def common : List Attribute :=
  [ ((((text "id" "Unique resource identifier").asReadOnly).asCaseExact).withReturned
      .always).withUniqueness .server,
    (text "externalId" "Identifier assigned by the provisioning client").asCaseExact,
    (complex "meta" "Resource metadata"
      [ ((text "resourceType" "The name of the resource type").asReadOnly).asCaseExact,
        (typed "created" .dateTime "Creation timestamp").asReadOnly,
        (typed "lastModified" .dateTime "Last modification timestamp").asReadOnly,
        (typed "location" .reference "Resource URI").asReadOnly,
        ((text "version" "Resource version").asReadOnly).asCaseExact ]).asReadOnly ]

end Schema

end Roster
