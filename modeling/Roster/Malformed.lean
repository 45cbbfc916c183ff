/-!
What is wrong with the text of a filter or a path, and where. Positions count bytes from the start
of the text.
-/

namespace Roster

inductive Malformed where
  | tooLong (bytes limit : Nat)
  | tooDeep (limit : Nat)
  | trailing (text : String)
  | notWithoutParenthesis
  | unclosedNot
  | unclosedGroup
  | unclosedSelection
  | selectionAfterSubAttribute
  | nameExpected
  | qualifiedName (text : String)
  | operatorExpected
  | unknownOperator (word : String)
  | valueExpected
  | unterminatedText
  | escape
  | number (text : String)
  | empty
  | unbalanced (c : Char)
  | unclosed (c : Char)
  | nameExpectedAfterUrn
  | afterSelection (c : Char)
  | emptySegment
  | segmentName (text : String)
  | comparisonExpected
deriving DecidableEq, Repr, Inhabited

def Malformed.message : Malformed → String
  | .tooLong bytes limit =>
    "Filter exceeds maximum length (" ++ toString bytes ++ " bytes, max " ++ toString limit ++ ")"
  | .tooDeep limit => "Filter exceeds maximum nesting depth (" ++ toString limit ++ ")"
  | .trailing text => "Unexpected input: '" ++ text ++ "'"
  | .notWithoutParenthesis => "Expected '(' after 'not'"
  | .unclosedNot => "Expected ')' to close 'not' expression"
  | .unclosedGroup => "Expected ')' to close grouped expression"
  | .unclosedSelection => "Expected ']' to close value filter"
  | .selectionAfterSubAttribute => "Value filter must follow an attribute name"
  | .nameExpected => "Expected attribute name"
  | .qualifiedName text => "Invalid attribute path after schema URN: '" ++ text ++ "'"
  | .operatorExpected => "Expected comparison operator"
  | .unknownOperator word => "Unknown operator: '" ++ word ++ "'"
  | .valueExpected => "Expected value (string, boolean, number, or null)"
  | .unterminatedText => "Unterminated string"
  | .escape => "Invalid escape sequence"
  | .number text => "Invalid number: '" ++ text ++ "'"
  | .empty => "Empty path or filter expression"
  | .unbalanced c => "Unbalanced '" ++ c.toString ++ "'"
  | .unclosed c => "Unclosed '" ++ c.toString ++ "'"
  | .nameExpectedAfterUrn => "Expected attribute name after schema URN"
  | .afterSelection c => "Unexpected '" ++ c.toString ++ "' after value filter"
  | .emptySegment => "Empty path segment"
  | .segmentName text => "Invalid attribute name '" ++ text ++ "'"
  | .comparisonExpected => "Expected comparison after attribute path"

/-- A fault and the byte position at which it was found. -/
structure ParseError where
  cause : Malformed
  position : Nat
deriving DecidableEq, Repr, Inhabited

def ParseError.message (e : ParseError) : String :=
  e.cause.message ++ " at position " ++ toString e.position

end Roster
