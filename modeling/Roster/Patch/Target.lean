import Roster.Query.Compile

/-!
The part of a resource that a path addresses. A value filter selects elements of a list by their
indices, and a selection of none is kept apart from the attribute as a whole.
-/

namespace Roster

/-- What an operation touches of the addressed attribute: all of it, or the elements at some
indices, in increasing order. -/
inductive Selection where
  | whole
  | elements (indices : List Nat)
deriving DecidableEq, Repr, Inhabited

/-- An addressed attribute, or a whole extension, which has no definition. `container` leads to the
object that holds it, and `members` define what its values hold. -/
structure Target where
  path : String
  container : List String
  name : String
  definition : Option Attribute
  members : List Attribute
  selection : Selection
  sub : Option Attribute
  filter : Option Filter
  extension : Option String
deriving Repr, Inhabited

namespace Target

/-- The traits of the innermost attribute. -/
def traits (t : Target) : Traits :=
  match t.sub, t.definition with
  | some sub, _ => sub.traits
  | none, some a => a.traits
  | none, none => .extension

def isExtension (t : Target) : Bool :=
  t.container.isEmpty && t.extension == some t.name

/-- Fails when a filter has selected nothing. -/
def requireMatch (t : Target) : Except ExpressionError Unit :=
  if t.selection = .elements [] then .error (.noTarget t.path .nothingMatched) else .ok ()

end Target

/-- The value under a name in the object that other names lead to. -/
def Json.follow? (v : Json) : List String → String → Option Json
  | [], name => v.member? name
  | key :: keys, name => (v.member? key).bind fun v => v.follow? keys name

/-- The indices of the values that satisfy a condition, counted from `start`. -/
def Condition.indices (c : Condition) : Nat → List Json → List Nat
  | _, [] => []
  | start, v :: rest =>
    if c.holds v then start :: c.indices (start + 1) rest else c.indices (start + 1) rest

/-- The sub-attribute that ends a path behind the attribute it belongs to. -/
def Attribute.lastSub (a : Attribute) (path : String) :
    List Segment → Except ExpressionError (Option Attribute)
  | [] => .ok none
  | .name name :: rest =>
    if !rest.isEmpty then .error (.invalidPath path .tooManySegments)
    else match a.subAttribute? name with
      | none => .error (.noTarget path (.unknownSubAttribute a.name name))
      | some sub =>
        if sub.isReadOnly then .error (.readOnly (a.name ++ "." ++ sub.name)) else .ok (some sub)
  | _ :: _ => .error (.invalidPath path .subAttributeExpected)

/-- What a filter selects of a list; all, when there is none. -/
def Attribute.select (r : Registry) (kind : Kind) (a : Attribute) (filter : Option Filter)
    (held : Option Json) : Except ExpressionError Selection :=
  match filter with
  | none => .ok .whole
  | some f => do
    let condition ← f.compile r kind (.members a.subAttributes)
    .ok (.elements (condition.indices 0 ((held.bind Json.items?).getD [])))

/-- Resolves the segments behind an extension, if any, and the singular complex attributes of
`container`. -/
def resolveSegments (r : Registry) (kind : Kind) (path : String) (resource : Json)
    (extension : Option String) :
    Scope → List String → List Segment → Except ExpressionError Target
  | _, _, [] => .error (.invalidPath path .emptyPath)
  | scope, container, s :: rest =>
    if s.isSchemaUrn then .error (.invalidPath path .urnNotFirst)
    else match s.name? with
      | none => .error (.invalidPath path .noAttribute)
      | some name =>
        match scope.find? kind name with
        | none => .error (.noTarget path (.unknownAttribute name))
        | some a =>
          if a.isReadOnly then .error (.readOnly a.name)
          else if !a.multiValued && s.filter?.isSome then
            .error (.invalidPath path .selectionNeedsList)
          else if !a.multiValued && !rest.isEmpty then
            if a.type != .complex then .error (.noTarget path (.noSubAttributes a.name))
            else resolveSegments r kind path resource extension (.members a.subAttributes)
              (container ++ [a.name]) rest
          else do
            let filter ← s.filterOrError
            let selection ← a.select r kind filter (resource.follow? container a.name)
            let sub ← a.lastSub path rest
            .ok ⟨path, container, a.name, some a, a.subAttributes, selection, sub, filter,
              extension⟩

/-- What an expression addresses in a resource of a kind. -/
def Expression.resolve (r : Registry) (kind : Kind) (e : Expression) (resource : Json) :
    Except ExpressionError Target :=
  let path := e.normalized
  match e.segments with
  | .name urn :: rest =>
    if isUrn urn then
      match r.extension? kind urn with
      | none => .error (.noTarget path (.unsupportedSchema urn))
      | some s =>
        if rest.isEmpty then
          .ok ⟨path, [], s.id, none, s.attributes, .whole, none, none, some s.id⟩
        else resolveSegments r kind path resource (some s.id) (.members s.attributes) [s.id] rest
    else resolveSegments r kind path resource none .resource [] e.segments
  | segments => resolveSegments r kind path resource none .resource [] segments

end Roster
