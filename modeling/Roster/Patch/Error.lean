import Roster.Expression.Error
import Roster.Json.Printer

/-!
Why an operation of a modification fails, with the text and the error type of each cause.
-/

namespace Roster

inductive PatchFault where
  | messageNotDeclared (urn : String)
  | noOperations
  | pathRequired
  | objectRequired
  | expression (error : ExpressionError)
  | requiredExtension (urn : String)
  | required (name : String)
  | immutable (name : String)
  | severalPrimary (name : String)
  | noValues (name : String)
  | nothingMatched (path : String)
  | elementNotObject (name : String)
  | wrongType (name : String) (type : AttributeType) (value : Json)
  | notObject (name : String) (value : Json)
  | unknownMember (owner name : String)
  | holdsNoObject (name : String)
  | holdsNoList (name : String)
deriving Repr, Inhabited

namespace PatchFault

def message : PatchFault → String
  | .messageNotDeclared urn => "schemas must contain '" ++ urn ++ "'"
  | .noOperations => "Operations must not be empty"
  | .pathRequired => "remove requires a path"
  | .objectRequired => "an operation without a path requires an object value"
  | .expression e => e.message
  | .requiredExtension urn => "extension '" ++ urn ++ "' is required"
  | .required name => "'" ++ name ++ "' is required"
  | .immutable name => "'" ++ name ++ "' is immutable"
  | .severalPrimary name => "at most one '" ++ name ++ "' value may be primary"
  | .noValues name => "'" ++ name ++ "' has no values"
  | .nothingMatched path => "no values matched '" ++ path ++ "'"
  | .elementNotObject name => "'" ++ name ++ "' expects an object"
  | .wrongType name type value =>
    "'" ++ name ++ "' expects a " ++ type.name ++ " value, got " ++ value.toText
  | .notObject name value => "'" ++ name ++ "' expects an object, got " ++ value.toText
  | .unknownMember owner name => "'" ++ owner ++ "' has no sub-attribute '" ++ name ++ "'"
  | .holdsNoObject name => "'" ++ name ++ "' does not hold an object"
  | .holdsNoList name => "'" ++ name ++ "' does not hold a list"

def type : PatchFault → ErrorType
  | .messageNotDeclared _ | .noOperations => .invalidSyntax
  | .pathRequired | .noValues _ | .nothingMatched _ => .noTarget
  | .immutable _ => .mutability
  | .expression e => e.patchType
  | _ => .invalidValue

end PatchFault

/-- A fault, and the index of the operation that has it. -/
structure PatchError where
  fault : PatchFault
  operation : Option Nat
deriving Repr, Inhabited

namespace PatchError

def type (e : PatchError) : ErrorType := e.fault.type

def message (e : PatchError) : String :=
  match e.operation with
  | some i => "operation " ++ toString i ++ ": " ++ e.fault.message
  | none => e.fault.message

end PatchError

end Roster
