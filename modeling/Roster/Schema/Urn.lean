/-!
The URNs that name schemas and messages of the protocol, in both of its versions.
-/

namespace Roster

namespace Urn

def user : String := "urn:ietf:params:scim:schemas:core:2.0:User"
def group : String := "urn:ietf:params:scim:schemas:core:2.0:Group"
def enterpriseUser : String := "urn:ietf:params:scim:schemas:extension:enterprise:2.0:User"
def serviceProviderConfig : String :=
  "urn:ietf:params:scim:schemas:core:2.0:ServiceProviderConfig"
def resourceType : String := "urn:ietf:params:scim:schemas:core:2.0:ResourceType"
def schema : String := "urn:ietf:params:scim:schemas:core:2.0:Schema"
def listResponse : String := "urn:ietf:params:scim:api:messages:2.0:ListResponse"
def searchRequest : String := "urn:ietf:params:scim:api:messages:2.0:SearchRequest"
def patchOperation : String := "urn:ietf:params:scim:api:messages:2.0:PatchOp"
def error : String := "urn:ietf:params:scim:api:messages:2.0:Error"

/-- The one core schema of version 1.1, for users and groups alike. -/
def legacyCore : String := "urn:scim:schemas:core:1.0"
def legacyEnterprise : String := "urn:scim:schemas:extension:enterprise:1.0"

end Urn

end Roster
