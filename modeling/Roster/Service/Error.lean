import Roster.ErrorResponse
import Roster.Store.Call

/-!
Why a request on resources fails, and the answer it then gets.
-/

namespace Roster

/-- Why a value in a request is not accepted. -/
inductive ValueFault where
  | schemasNotListed
  | coreNotDeclared (urn : String)
  | extensionNotDeclared (urn : String)
  | unsupportedSchema (urn : String) (kind : Kind)
  | attribute (fault : PatchFault)
  | required (name : String)
  | memberWithoutValue
  | unknownMember (id : String)
  | sortBy (error : ExpressionError)
  | projection (error : ExpressionError)
deriving Repr, Inhabited

def ValueFault.message : ValueFault → String
  | .schemasNotListed => "'schemas' must be a list of schema URNs"
  | .coreNotDeclared urn => "'schemas' must contain '" ++ urn ++ "'"
  | .extensionNotDeclared urn =>
    "'schemas' must contain the required extension '" ++ urn ++ "'"
  | .unsupportedSchema urn kind => "schema '" ++ urn ++ "' is not supported for " ++ kind.name
  | .attribute fault => fault.message
  | .required name => "'" ++ name ++ "' is required"
  | .memberWithoutValue => "group members need a 'value'"
  | .unknownMember id => "member '" ++ id ++ "' does not exist"
  | .sortBy e => "sortBy: " ++ e.message
  | .projection e => e.message

/-- What a server may not offer. -/
inductive Feature where
  | patch
  | filtering
  | sorting
deriving DecidableEq, Repr, Inhabited

def Feature.name : Feature → String
  | .patch => "PATCH"
  | .filtering => "filtering"
  | .sorting => "sorting"

inductive ServiceError where
  | store (error : StoreError)
  | notFound (kind : Kind) (id : String)
  | userNameTaken (name : String)
  | invalidValue (fault : ValueFault)
  | bodyNotObject
  | filter (error : ExpressionError)
  | patch (error : PatchError)
  | notOffered (feature : Feature)
deriving Repr, Inhabited

/-- The answer to a request that fails. -/
def ServiceError.response : ServiceError → ErrorResponse
  | .store .notFound => .notFound "Resource not found"
  | .store (.conflict kind id) => .conflict (conflictText kind id)
  | .store e => .internal ("Database error: " ++ e.message)
  | .notFound kind id => .notFound (kind.name ++ " '" ++ id ++ "' not found")
  | .userNameTaken name => .conflict ("User with userName '" ++ name ++ "' already exists")
  | .invalidValue fault => .ofType .invalidValue fault.message
  | .bodyNotObject => .ofType .invalidSyntax "request body must be a JSON object"
  | .filter e => .ofQuery e
  | .patch e => .ofPatch e
  | .notOffered feature => .notImplemented (feature.name ++ " is not supported by this server")

end Roster
