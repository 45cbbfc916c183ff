import Roster.Decimal.Parser
import Roster.Filter.Basic
import Roster.Malformed
import Roster.Text.Blank
import Roster.Text.Slice

/-!
Reading the text of a filter: `or` over `and` over tests, at most 4096 bytes and 32 levels of
parentheses and brackets. Blanks may stand between any two tokens, and words are keywords in any
letter case.
-/

namespace Roster

namespace Filter

/-- The longest text that is read, in bytes. -/
def greatestLength : Nat := 4096

/-- The deepest nesting of parentheses and brackets that is read. -/
def greatestDepth : Nat := 32

/-- A fault with the text that begins where it was found. -/
structure Fault where
  cause : Malformed
  rest : List Char

/-- Reads something off the front of a text. -/
abbrev Scan (α : Type) := List Char → Except Fault (α × List Char)

/-- The text after a keyword, which no further character of a name, a dot or a colon may follow. -/
def keyword? (word : String) (cs : List Char) : Option (List Char) :=
  let cs := skipBlanks cs
  let word := word.toList
  if beginsWith word cs then
    match cs.drop word.length with
    | [] => some []
    | c :: rest => if isNameChar c || c == '.' || c == ':' then none else some (c :: rest)
  else none

/-- Reads an attribute name. -/
def scanName : Scan String := fun cs =>
  match skipBlanks cs with
  | c :: rest =>
    if isNameStart c then
      .ok (String.ofList (c :: rest.takeWhile isNameChar), rest.dropWhile isNameChar)
    else .error ⟨.nameExpected, c :: rest⟩
  | [] => .error ⟨.nameExpected, []⟩

/-- A character of a qualified attribute path. -/
def isQualifiedChar (c : Char) : Bool :=
  isNameChar c || c == ':' || c == '.' || c == '$'

/-- A text before and after its last colon. -/
def splitLastColon (cs : List Char) : List Char × List Char :=
  let tail := (cs.reverse.takeWhile (· != ':')).reverse
  (cs.take (cs.length - tail.length - 1), tail)

/-- Reads the path after a URN: its last colon ends the schema. -/
def scanQualified : Scan AttributePath := fun cs =>
  let (schema, path) := splitLastColon (cs.takeWhile isQualifiedChar)
  let rest := cs.dropWhile isQualifiedChar
  let refused := Except.error ⟨.qualifiedName (String.ofList path), path ++ rest⟩
  match path.splitOnP (· == '.') with
  | [name] =>
    if isAttributeName name then
      .ok (⟨some (String.ofList schema), String.ofList name, none⟩, rest)
    else refused
  | [name, sub] =>
    if isAttributeName name && isAttributeName sub then
      .ok (⟨some (String.ofList schema), String.ofList name, some (String.ofList sub)⟩, rest)
    else refused
  | _ => refused

/-- Reads an attribute path. -/
def scanPath : Scan AttributePath := fun cs =>
  let cs := skipBlanks cs
  if beginsWith "urn:".toList cs then scanQualified cs
  else do
    let (name, rest) ← scanName cs
    match rest with
    | '.' :: rest =>
      let (sub, rest) ← scanName rest
      .ok (⟨none, name, some sub⟩, rest)
    | rest => .ok (⟨none, name, none⟩, rest)

/-- Reads a comparison operator. -/
def scanOperator : Scan CompareOp := fun cs =>
  let cs := skipBlanks cs
  let word := String.ofList (cs.takeWhile isLetter)
  if word.isEmpty then .error ⟨.operatorExpected, cs⟩
  else match CompareOp.ofWord? word with
    | some op => .ok (op, cs.dropWhile isLetter)
    | none => .error ⟨.unknownOperator word, cs⟩

/-- The character that an escape stands for. -/
def unescape? : Char → Option Char
  | '"' => some '"'
  | '\\' => some '\\'
  | '/' => some '/'
  | 'n' => some '\n'
  | 't' => some '\t'
  | 'r' => some '\r'
  | _ => none

/-- Reads a quoted text after its opening quote. -/
def scanText : Scan (List Char)
  | [] => .error ⟨.unterminatedText, []⟩
  | '"' :: rest => .ok ([], rest)
  | ['\\'] => .error ⟨.escape, []⟩
  | '\\' :: c :: rest =>
    match unescape? c with
    | some d => (scanText rest).map fun r => (d :: r.1, r.2)
    | none => .error ⟨.escape, c :: rest⟩
  | c :: rest => (scanText rest).map fun r => (c :: r.1, r.2)

/-- A sign in front of a text. -/
def signOf : List Char → List Char
  | '-' :: _ => ['-']
  | '+' :: _ => ['+']
  | _ => []

/-- The longest front of a text with the form of a number, and whether it has an exponent. -/
def numberToken (cs : List Char) : List Char × Bool :=
  let sign := signOf cs
  let cs := cs.drop sign.length
  let whole := cs.takeWhile isDigit
  let cs := cs.drop whole.length
  let fraction := match cs with
    | '.' :: rest => '.' :: rest.takeWhile isDigit
    | _ => []
  let cs := cs.drop fraction.length
  match cs with
  | c :: rest =>
    if c == 'e' || c == 'E' then
      let sign' := signOf rest
      (sign ++ whole ++ fraction ++ c :: sign' ++ (rest.drop sign'.length).takeWhile isDigit, true)
    else (sign ++ whole ++ fraction, false)
  | [] => (sign ++ whole ++ fraction, false)

/-- The decimal of a number token. A plus sign in front is dropped. -/
def numberOf? (token : List Char) (scientific : Bool) : Option Decimal :=
  let digits := match token with
    | '+' :: rest => rest
    | token => token
  if scientific then Decimal.parseScientific? digits else Decimal.parsePlain? digits

/-- Reads a number. -/
def scanNumber : Scan Literal := fun cs =>
  let (token, scientific) := numberToken cs
  match numberOf? token scientific with
  | some d => .ok (.number d, cs.drop token.length)
  | none => .error ⟨.number (String.ofList token), cs⟩

/-- Reads the value of a comparison. -/
def scanLiteral : Scan Literal := fun cs =>
  match skipBlanks cs with
  | '"' :: rest => (scanText rest).map fun r => (.text (String.ofList r.1), r.2)
  | cs =>
    match keyword? "true" cs with
    | some rest => .ok (.bool true, rest)
    | none =>
      match keyword? "false" cs with
      | some rest => .ok (.bool false, rest)
      | none =>
        match keyword? "null" cs with
        | some rest => .ok (.null, rest)
        | none =>
          match cs with
          | c :: rest =>
            if isDigit c || c == '-' || c == '+' then scanNumber (c :: rest)
            else .error ⟨.valueExpected, c :: rest⟩
          | [] => .error ⟨.valueExpected, []⟩

/-- Reads what follows an attribute: `pr`, or an operator and a value. -/
def scanTest (a : AttributePath) : Scan Filter := fun cs =>
  match keyword? "pr" cs with
  | some rest => .ok (.present a, rest)
  | none => do
    let (op, rest) ← scanOperator cs
    let (value, rest) ← scanLiteral rest
    .ok (.compare a op value, rest)

/-- Reads a nested filter up to its closing character. -/
def scanEnclosed (nested : Scan Filter) (close : Char) (fault : Malformed) : Scan Filter :=
  fun cs => do
    let (inner, rest) ← nested cs
    match skipBlanks rest with
    | c :: rest => if c == close then .ok (inner, rest) else .error ⟨fault, c :: rest⟩
    | [] => .error ⟨fault, []⟩

/-- Reads a test of one attribute. What follows a selection behind a dot joins its filter; a `pr`
behind it adds nothing. -/
def scanAttribute (nested : Scan Filter) : Scan Filter := fun cs => do
  let (a, rest) ← scanPath cs
  match rest with
  | '[' :: inner =>
    if a.sub.isSome then .error ⟨.selectionAfterSubAttribute, '[' :: inner⟩
    else
      let (f, rest) ← scanEnclosed nested ']' .unclosedSelection inner
      match rest with
      | '.' :: rest =>
        let (name, rest) ← scanName rest
        let (test, rest) ← scanTest (.ofName name) rest
        .ok (.select a (.and f.groupedIfOr test), rest)
      | rest => .ok (.select a f, (keyword? "pr" rest).getD rest)
  | rest => scanTest a rest

/-- Reads a negation, a group or a test. -/
def scanOperand (nested : Scan Filter) : Scan Filter := fun cs =>
  match keyword? "not" cs with
  | some rest =>
    match skipBlanks rest with
    | '(' :: rest => (scanEnclosed nested ')' .unclosedNot rest).map fun r => (.not r.1, r.2)
    | rest => .error ⟨.notWithoutParenthesis, rest⟩
  | none =>
    match skipBlanks cs with
    | '(' :: rest => (scanEnclosed nested ')' .unclosedGroup rest).map fun r => (.group r.1, r.2)
    | cs => scanAttribute nested cs

/-- Reads further operands, each behind a keyword, and joins them from the left. -/
def scanChain (word : String) (join : Filter → Filter → Filter) (operand : Scan Filter) :
    Nat → Filter → Scan Filter
  | 0, left, cs => .ok (left, cs)
  | fuel + 1, left, cs =>
    match keyword? word cs with
    | some rest => do
      let (right, rest) ← operand rest
      scanChain word join operand fuel (join left right) rest
    | none => .ok (left, cs)

/-- Reads operands joined by a keyword. Each needs a character, which bounds their number. -/
def scanJoined (word : String) (join : Filter → Filter → Filter) (operand : Scan Filter) :
    Scan Filter := fun cs => do
  let (left, rest) ← operand cs
  scanChain word join operand rest.length left rest

def scanFilter (nested : Scan Filter) : Scan Filter :=
  scanJoined "or" .or (scanJoined "and" .and (scanOperand nested))

/-- Reads a filter that may open `depth - 1` levels. -/
def scanWithin : Nat → Scan Filter
  | 0 => fun cs => .error ⟨.tooDeep greatestDepth, cs⟩
  | depth + 1 => scanFilter (scanWithin depth)

/-- Reads a filter and the blanks behind it, up to the end of the text. -/
def scanAll (cs : List Char) : Except Fault Filter := do
  let (f, rest) ← scanWithin (greatestDepth + 1) cs
  match skipBlanks rest with
  | [] => .ok f
  | rest => .error ⟨.trailing (String.ofList rest), rest⟩

/-- The filter of a text. -/
def parse (text : String) : Except ParseError Filter :=
  let cs := text.toList
  let bytes := utf8Length cs
  if greatestLength < bytes then .error ⟨.tooLong bytes greatestLength, 0⟩
  else match scanAll cs with
    | .ok f => .ok f
    | .error fault => .error ⟨fault.cause, bytes - utf8Length fault.rest⟩

end Filter

end Roster
