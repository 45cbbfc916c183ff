import Roster.Expression.Parser
import Roster.Query.Condition
import Roster.Width

/-!
Compiling filters and expressions against the attributes of a kind. Names are resolved in scope and
replaced by their canonical spelling, operators are checked against the attribute's type, and
literals are read at it.
-/

namespace Roster

/-- An attribute found in a scope: the names that lead to it, its traits and its sub-attributes. -/
structure Resolved where
  keys : List String
  traits : Traits
  subAttributes : List Attribute

/-- Finds an attribute path in a scope. A URN qualifies paths at the top of a resource only. -/
def AttributePath.resolve (r : Registry) (kind : Kind) (scope : Scope) (a : AttributePath) :
    Except ExpressionError Resolved := do
  let unknown := ExpressionError.unknownAttribute a.toText
  let (front, scope) ← match a.schema, scope with
    | none, scope => Except.ok (([] : List String), scope)
    | some urn, .resource =>
      if isCoreSchema urn then .ok ([], .resource)
      else match r.extension? kind urn with
        | some s => .ok ([s.id], .members s.attributes)
        | none => .error unknown
    | some _, .members _ => .error unknown
  match scope.find? kind a.name with
  | none => .error unknown
  | some top =>
    match a.sub with
    | none => .ok ⟨front ++ [top.name], top.traits, top.subAttributes⟩
    | some name =>
      match top.subAttribute? name with
      | some sub => .ok ⟨front ++ [top.name, sub.name], sub.traits, sub.subAttributes⟩
      | none => .error unknown

/-- Which operators compare values of a type. -/
def AttributeType.supports (type : AttributeType) (op : CompareOp) : Bool :=
  match type with
  | .complex => false
  | .boolean => op == .eq || op == .ne
  | .string => true
  | .reference | .binary => !op.isOrdering
  | .integer | .decimal | .dateTime => !op.isSubstring

/-- Reads a literal at a type. Null can only be equal or unequal to a value. -/
def Literal.typed (op : CompareOp) (type : AttributeType) (value : Literal) :
    Except LiteralFault TypedValue :=
  match value with
  | .null => if op == .eq || op == .ne then .ok .null else .error (.nullOrdered op)
  | .text s =>
    match type with
    | .string | .reference | .binary => .ok (.text s)
    | .dateTime =>
      match Instant.parse? s with
      | some t => .ok (.dateTime t)
      | none => .error (.notTimestamp s)
    | type => .error (.wrongType (.text s) type)
  | .bool b =>
    match type with
    | .boolean => .ok (.bool b)
    | type => .error (.wrongType (.bool b) type)
  | .number d =>
    match type with
    | .integer =>
      if d.isWhole then
        match signedWord? d.truncate with
        | some n => .ok (.integer n)
        | none => .error (.outOfRange d)
      else .error (.wrongType (.number d) .integer)
    | .decimal => .ok (.decimal d)
    | type => .error (.wrongType (.number d) type)

/-- The attribute that a comparison looks at: of a list of complex values, their `value`. -/
def Resolved.compared (a : Resolved) : Resolved :=
  if a.traits.type == .complex && a.traits.multiValued then
    match findAttribute? a.subAttributes "value" with
    | some value => ⟨a.keys ++ [value.name], value.traits, value.subAttributes⟩
    | none => a
  else a

def compileComparison (r : Registry) (kind : Kind) (scope : Scope) (a : AttributePath)
    (op : CompareOp) (value : Literal) : Except ExpressionError Condition := do
  let resolved ← a.resolve r kind scope
  let target := resolved.compared
  if !target.traits.type.supports op then
    .error (.unsupportedOperator a.toText op target.traits.type)
  else match value.typed op target.traits.type with
    | .ok literal => .ok (.compare target.keys op literal target.traits.caseExact)
    | .error fault => .error (.invalidLiteral a.toText fault)

/-- Compiles a filter for the values of a scope. -/
def Filter.compile (r : Registry) (kind : Kind) : Scope → Filter → Except ExpressionError Condition
  | scope, .compare a op value => compileComparison r kind scope a op value
  | scope, .present a => do
    let resolved ← a.resolve r kind scope
    .ok (.present resolved.keys)
  | scope, .select a f => do
    let resolved ← a.resolve r kind scope
    if resolved.traits.type != .complex then
      .error (.invalidPath a.toText .selectionNeedsComplex)
    else
      let inner ← f.compile r kind (.members resolved.subAttributes)
      .ok (.any resolved.keys inner)
  | scope, .and f g => do
    let left ← f.compile r kind scope
    let right ← g.compile r kind scope
    .ok (.and left right)
  | scope, .or f g => do
    let left ← f.compile r kind scope
    let right ← g.compile r kind scope
    .ok (.or left right)
  | scope, .not f => do
    let inner ← f.compile r kind scope
    .ok (.not inner)
  | scope, .group f => f.compile r kind scope

/-- The filter of a segment, with a fault turned into an error of the expression. -/
def Segment.filterOrError (s : Segment) : Except ExpressionError (Option Filter) :=
  match s.parsedFilter with
  | .ok f => .ok f
  | .error e => .error (.malformed e)

/-- Compiles segments in turn; `path` is the whole text, for errors. -/
def compileSegments (r : Registry) (kind : Kind) (path : String) :
    Scope → List Segment → Except ExpressionError (List Step)
  | _, [] => .ok []
  | scope, s :: rest => do
    let filter ← s.filterOrError
    match s.name? with
    | none =>
      match filter with
      | none => compileSegments r kind path scope rest
      | some f =>
        let condition ← f.compile r kind scope
        let steps ← compileSegments r kind path scope rest
        .ok (.test condition :: steps)
    | some name =>
      if s.isSchemaUrn then
        match r.extension? kind name with
        | none => .error (.unknownAttribute name)
        | some extension =>
          let steps ← compileSegments r kind path (.members extension.attributes) rest
          .ok (.extension extension.id :: steps)
      else
        match scope.find? kind name with
        | none => .error (.unknownAttribute name)
        | some a =>
          let condition ← match filter with
            | none => pure none
            | some f =>
              if a.type != .complex then .error (.invalidPath path (.notComplex a.name))
              else (f.compile r kind (.members a.subAttributes)).map some
          let steps ← compileSegments r kind path (.members a.subAttributes) rest
          .ok (.attribute a.name condition :: steps)

/-- Compiles an expression that ends with a filter. -/
def Expression.compile (r : Registry) (kind : Kind) (e : Expression) :
    Except ExpressionError Query :=
  if !e.endsWithFilter then
    .error (Expression.malformed .comparisonExpected (utf8Length e.normalized.toList))
  else (compileSegments r kind e.normalized .resource e.segments).map Query.mk

end Roster
