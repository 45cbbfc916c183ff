import Roster.Filter.Printer
import Roster.Malformed
import Roster.Schema.Attribute

/-!
Why a path or filter cannot be read, compiled or resolved, with the text of each cause and the
error type that it has in a query and in a modification.
-/

namespace Roster

/-- The error types of the protocol. -/
inductive ErrorType where
  | invalidFilter
  | invalidSyntax
  | invalidPath
  | noTarget
  | mutability
  | uniqueness
  | invalidValue
deriving DecidableEq, Repr, Inhabited

def ErrorType.name : ErrorType → String
  | .invalidFilter => "invalidFilter"
  | .invalidSyntax => "invalidSyntax"
  | .invalidPath => "invalidPath"
  | .noTarget => "noTarget"
  | .mutability => "mutability"
  | .uniqueness => "uniqueness"
  | .invalidValue => "invalidValue"

/-- Why a literal does not fit an attribute. -/
inductive LiteralFault where
  | nullOrdered (op : CompareOp)
  | outOfRange (d : Decimal)
  | notTimestamp (s : String)
  | wrongType (value : Literal) (type : AttributeType)
deriving DecidableEq, Repr, Inhabited

def LiteralFault.message : LiteralFault → String
  | .nullOrdered op => "null cannot be compared with '" ++ op.word ++ "'"
  | .outOfRange d => d.toText ++ " is out of range"
  | .notTimestamp s => "'" ++ s ++ "' is not an RFC 3339 timestamp"
  | .wrongType value type => value.toText ++ " is not a " ++ type.name ++ " value"

/-- Why a path addresses nothing in a resource. -/
inductive TargetFault where
  | nothingMatched
  | unsupportedSchema (urn : String)
  | unknownAttribute (name : String)
  | noSubAttributes (name : String)
  | unknownSubAttribute (name sub : String)
deriving DecidableEq, Repr, Inhabited

def TargetFault.message : TargetFault → String
  | .nothingMatched => "no values matched the filter"
  | .unsupportedSchema urn => "schema '" ++ urn ++ "' is not supported here"
  | .unknownAttribute name => "unknown attribute '" ++ name ++ "'"
  | .noSubAttributes name => "'" ++ name ++ "' has no sub-attributes"
  | .unknownSubAttribute name sub => "'" ++ name ++ "' has no sub-attribute '" ++ sub ++ "'"

/-- Why a well-formed path cannot be used where it stands. -/
inductive PathFault where
  | notComplex (name : String)
  | selectionNeedsComplex
  | selectionNeedsList
  | sortNeedsPath
  | sortNeedsAttribute
  | sortOfComplex
  | urnNotFirst
  | noAttribute
  | subAttributeExpected
  | tooManySegments
  | emptyPath
deriving DecidableEq, Repr, Inhabited

def PathFault.message : PathFault → String
  | .notComplex name => "'" ++ name ++ "' is not a complex attribute"
  | .selectionNeedsComplex => "value filters apply to complex attributes"
  | .selectionNeedsList => "value filters apply to multi-valued attributes"
  | .sortNeedsPath => "sortBy must be an attribute path"
  | .sortNeedsAttribute => "sortBy must name an attribute"
  | .sortOfComplex => "cannot sort by a complex attribute"
  | .urnNotFirst => "a schema URN must start the path"
  | .noAttribute => "a filter does not address an attribute"
  | .subAttributeExpected => "expected a sub-attribute after the value filter"
  | .tooManySegments => "too many path segments"
  | .emptyPath => "empty path"

/-- A failure of a path or filter. A `brokenSlice` would be a cut outside the text or inside a
character. -/
inductive ExpressionError where
  | malformed (error : ParseError)
  | unknownAttribute (path : String)
  | unsupportedOperator (path : String) (op : CompareOp) (type : AttributeType)
  | invalidLiteral (path : String) (fault : LiteralFault)
  | readOnly (path : String)
  | noTarget (path : String) (fault : TargetFault)
  | invalidPath (path : String) (fault : PathFault)
  | brokenSlice (start stop : Nat)
deriving DecidableEq, Repr, Inhabited

namespace ExpressionError

def message : ExpressionError → String
  | .malformed e => e.message
  | .unknownAttribute path => "unknown attribute '" ++ path ++ "'"
  | .unsupportedOperator path op type =>
    "operator '" ++ op.word ++ "' is not supported for " ++ type.name ++ " attribute '" ++ path ++ "'"
  | .invalidLiteral path fault =>
    "invalid comparison value for attribute '" ++ path ++ "': " ++ fault.message
  | .readOnly path => "attribute '" ++ path ++ "' is read-only"
  | .noTarget path fault => "path '" ++ path ++ "' does not address a target: " ++ fault.message
  | .invalidPath path fault => "invalid path '" ++ path ++ "': " ++ fault.message
  | .brokenSlice start stop => "no text between " ++ toString start ++ " and " ++ toString stop

/-- The type of the failure of a query. -/
def queryType : ExpressionError → ErrorType
  | .readOnly _ => .mutability
  | .noTarget _ _ => .noTarget
  | .invalidPath _ _ => .invalidPath
  | _ => .invalidFilter

/-- The type of the failure of a modification. -/
def patchType : ExpressionError → ErrorType
  | .readOnly _ => .mutability
  | .noTarget _ _ => .noTarget
  | _ => .invalidPath

end ExpressionError

end Roster
