import Roster.Expression.Basic
import Roster.Expression.Error
import Roster.Schema.Registry

/-!
Reading a path or filter. The text up to its first blank, parenthesis or quote outside brackets
decides: an attribute path becomes a segment a name, a path with one comparison attaches it to
the owner of its last name, and anything else is one filter in bracket form.
-/

namespace Roster

namespace Expression

/-- A slice between two byte positions of a text. -/
def cut (text : List Char) (start stop : Nat) : Except ExpressionError (List Char) :=
  match slice? text start stop with
  | some part => .ok part
  | none => .error (.brokenSlice start stop)

def malformed (cause : Malformed) (position : Nat) : ExpressionError :=
  .malformed ⟨cause, position⟩

/-! ### The leading path -/

/-- What has been seen of a text: the open quote, the open brackets and parentheses with their
positions, and where the leading path ended. -/
structure Boundary where
  position : Nat
  quote : Option Nat
  escaped : Bool
  opened : List (Char × Nat)
  lead : Option Nat

/-- A character inside quotes. -/
def Boundary.quoted (b : Boundary) (c : Char) : Boundary :=
  if b.escaped then { b with escaped := false }
  else if c == '\\' then { b with escaped := true }
  else if c == '"' then { b with quote := none }
  else b

/-- A character outside quotes. -/
def Boundary.plain (b : Boundary) (c : Char) : Except ExpressionError Boundary :=
  let b := if b.lead.isNone && b.opened.isEmpty && (isBlank c || c == '(' || c == '"') then
    { b with lead := some b.position } else b
  if c == '"' then .ok { b with quote := some b.position }
  else if c == '[' || c == '(' then .ok { b with opened := (c, b.position) :: b.opened }
  else if c == ']' || c == ')' then
    match b.opened with
    | (o, _) :: rest =>
      if o == (if c == ']' then '[' else '(') then .ok { b with opened := rest }
      else .error (malformed (.unbalanced c) b.position)
    | [] => .error (malformed (.unbalanced c) b.position)
  else .ok b

def Boundary.step (b : Boundary) (c : Char) : Except ExpressionError Boundary := do
  let next ← if b.quote.isSome then .ok (b.quoted c) else b.plain c
  .ok { next with position := b.position + c.utf8Size }

/-- Checks that quotes, brackets and parentheses are balanced, and gives the position where the
leading path ends. -/
def leadEnd (text : List Char) : Except ExpressionError Nat := do
  let b ← text.foldlM Boundary.step ⟨0, none, false, [], none⟩
  match b.quote with
  | some start => .error (malformed .unterminatedText start)
  | none =>
    match b.opened with
    | (c, position) :: _ => .error (malformed (.unclosed c) position)
    | [] => .ok (b.lead.getD b.position)

/-! ### Components between dots -/

/-- The state of splitting a path at its dots: where the component began, the bracket that its
filter opened, and whether that has closed. -/
structure Splitter where
  position : Nat
  depth : Nat
  quoted : Bool
  escaped : Bool
  start : Nat
  bracket : Option Nat
  closed : Bool
  parts : List (String × Option String)

/-- The component between two positions: its name, and the filter inside its brackets. -/
def component (text : List Char) (start stop : Nat) (bracket : Option Nat) (offset : Nat) :
    Except ExpressionError (String × Option String) := do
  let (name, filter) ← match bracket with
    | some opened => do
      let name ← cut text start opened
      let filter ← cut text (opened + 1) (stop - 1)
      pure (name, some (String.ofList filter))
    | none => do
      let name ← cut text start stop
      pure (name, none)
  if name.isEmpty then .error (malformed .emptySegment (offset + start))
  else if !isAttributeName name then
    .error (malformed (.segmentName (String.ofList name)) (offset + start))
  else .ok (String.ofList name, filter)

def Splitter.step (text : List Char) (offset : Nat) (s : Splitter) (c : Char) :
    Except ExpressionError Splitter := do
  let next ←
    if s.quoted then
      if s.escaped then .ok { s with escaped := false }
      else if c == '\\' then .ok { s with escaped := true }
      else if c == '"' then .ok { s with quoted := false }
      else .ok s
    else if c == '.' && s.depth == 0 then do
      let part ← component text s.start s.position s.bracket offset
      pure { s with start := s.position + 1, bracket := none, closed := false,
                    parts := part :: s.parts }
    else if s.depth == 0 && s.closed then
      .error (malformed (.afterSelection c) (offset + s.position))
    else if c == '"' then .ok { s with quoted := true }
    else if c == '[' then
      .ok { s with bracket := if s.depth == 0 then some s.position else s.bracket,
                   depth := s.depth + 1 }
    else if c == ']' then .ok { s with depth := s.depth - 1, closed := s.closed || s.depth ≤ 1 }
    else .ok s
  .ok { next with position := s.position + c.utf8Size }

/-- The components of a path, names with their filters. -/
def components (text : List Char) (offset : Nat) :
    Except ExpressionError (List (String × Option String)) := do
  let s ← text.foldlM (Splitter.step text offset) ⟨0, 0, false, false, 0, none, false, []⟩
  let last ← component text s.start s.position s.bracket offset
  .ok (last :: s.parts).reverse

/-! ### Attribute paths -/

/-- The byte positions at which a character satisfies a condition. -/
def positionsOf (p : Char → Bool) : List Char → Nat → List Nat
  | [], _ => []
  | c :: rest, position =>
    if p c then position :: positionsOf p rest (position + c.utf8Size)
    else positionsOf p rest (position + c.utf8Size)

/-- Tries ends of a schema URN in turn: the extension it names, none for a core schema, and the
text behind it. -/
def splitAtSchema (r : Registry) (text head : List Char) :
    List Nat → Except ExpressionError (Option String × List Char)
  | [] => .error (.unknownAttribute (String.ofList head))
  | stop :: stops => do
    let urn ← cut text 0 stop
    let rest ← cut text stop (utf8Length text)
    let rest := match rest with
      | ':' :: rest => rest
      | rest => rest
    let urn := String.ofList urn
    if r.isKnownExtension urn then .ok (some urn, rest)
    else if isCoreSchema urn then .ok (none, rest)
    else splitAtSchema r text head stops

/-- Splits off the longest front up to a colon that names a schema. -/
def schemaOf (r : Registry) (text : List Char) :
    Except ExpressionError (Option String × List Char) := do
  let head ← cut text 0 (((positionsOf (· == '[') text 0).head?).getD (utf8Length text))
  splitAtSchema r text head
    (utf8Length head :: (positionsOf (· == ':') head 0).reverse)

/-- The bracket form of a filter's text. -/
def normalizeFilter (text : List Char) : Except ExpressionError String :=
  match Filter.parse (String.ofList text) with
  | .ok f => .ok f.bracketed.toText
  | .error e => .error (.malformed e)

/-- The segments of components: filters are normalized in their order. -/
def segmentsOf : List (String × Option String) → Except ExpressionError (List Segment)
  | [] => .ok []
  | (name, filter) :: rest => do
    let segment ← match filter with
      | some text => (normalizeFilter text.toList).map (.selection name)
      | none => .ok (.name name)
    let segments ← segmentsOf rest
    .ok (segment :: segments)

/-- The text inside brackets that span all of it. -/
def unwrapped? : List Char → Option (List Char)
  | '[' :: rest => if rest.getLast? == some ']' then some rest.dropLast else none
  | _ => none

/-- The segments of a path. A core schema in front is dropped. -/
def attributePath (r : Registry) (text : List Char) : Except ExpressionError (List Segment) :=
  match unwrapped? text with
  | some inner => (normalizeFilter inner).map fun f => [.test f]
  | none =>
    if beginsWith "urn:".toList text then do
      let (extension, rest) ← schemaOf r text
      let front := (extension.map Segment.name).toList
      if rest.isEmpty then
        if extension.isSome then .ok front
        else .error (malformed .nameExpectedAfterUrn (utf8Length text))
      else
        let parts ← components rest (utf8Length text - utf8Length rest)
        let segments ← segmentsOf parts
        .ok (front ++ segments)
    else do
      let parts ← components text 0
      segmentsOf parts

/-! ### Expressions -/

/-- One filter in bracket form. -/
def generalFilter (text : List Char) : Except ExpressionError (List Segment) :=
  (normalizeFilter text).map fun f => [.test f]

/-- Reads the text behind a path as a comparison of its last name, and gives it to the segment
before; none when that is not what the text is. -/
def attach? (segments : List Segment) (rest : List Char) : Option (List Segment) :=
  match segments.reverse with
  | .name last :: front =>
    if isUrn last then none
    else match Filter.parse (last ++ " " ++ String.ofList rest) with
      | .ok f =>
        let attached := match front with
          | .name owner :: front' =>
            if isUrn owner then (.test f.toText :: front).reverse
            else (.selection owner f.toText :: front').reverse
          | front => (.test f.toText :: front).reverse
        match f with
        | .compare _ _ _ => some attached
        | .present _ => some attached
        | _ => none
      | .error _ => none
  | _ => none

/-- The segments of a text without blanks at its ends. -/
def parseTrimmed (r : Registry) (text : List Char) : Except ExpressionError (List Segment) := do
  let stop ← leadEnd text
  let lead ← cut text 0 stop
  let rest ← cut text stop (utf8Length text)
  let rest := trimBlanks rest
  if lead.isEmpty || (lead.head? == some '[' && !rest.isEmpty) then generalFilter text
  else if rest.isEmpty then attributePath r lead
  else if lead.getLast? == some ']' then generalFilter text
  else do
    let segments ← attributePath r lead
    match attach? segments rest with
    | some segments => .ok segments
    | none => generalFilter text

/-- The expression of a text. -/
def parse (r : Registry) (text : String) : Except ExpressionError Expression :=
  let text := trimBlanks text.toList
  let bytes := utf8Length text
  if text.isEmpty then .error (malformed .empty 0)
  else if Filter.greatestLength < bytes then
    .error (malformed (.tooLong bytes Filter.greatestLength) 0)
  else (parseTrimmed r text).map Expression.mk

end Expression

end Roster
