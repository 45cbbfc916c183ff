import Roster.Query.Compile

/-!
The order of resources by one attribute. Resources without a value come last, and values that
cannot be read at the attribute's type are equal to all others.
-/

namespace Roster

structure SortKey where
  keys : List String
  traits : Traits
deriving DecidableEq, Repr, Inhabited

namespace SortKey

/-- The names and the last traits that segments lead to. -/
def follow (r : Registry) (kind : Kind) (path : String) :
    Scope → List String → Option Traits → List Segment →
      Except ExpressionError (List String × Option Traits)
  | _, keys, traits, [] => .ok (keys, traits)
  | scope, keys, traits, s :: rest =>
    match s with
    | .name name =>
      if s.isSchemaUrn then
        match r.extension? kind name with
        | some extension =>
          follow r kind path (.members extension.attributes) (keys ++ [extension.id]) traits rest
        | none => .error (.unknownAttribute name)
      else
        match scope.find? kind name with
        | none => .error (.unknownAttribute name)
        | some a =>
          let found : Resolved := ⟨keys ++ [a.name], a.traits, a.subAttributes⟩
          let found := if rest.isEmpty then found.compared else found
          follow r kind path (.members a.subAttributes) found.keys (some found.traits) rest
    | _ => .error (.invalidPath path .sortNeedsPath)

/-- The key of a path to an attribute that is not complex. -/
def compile (r : Registry) (kind : Kind) (e : Expression) : Except ExpressionError SortKey := do
  let path := e.normalized
  let (keys, traits) ← follow r kind path .resource [] none e.segments
  match traits with
  | none => .error (.invalidPath path .sortNeedsAttribute)
  | some traits =>
    if traits.type == .complex then .error (.invalidPath path .sortOfComplex)
    else .ok ⟨keys, traits⟩

/-- The first assigned value under the key. -/
def firstValue? (k : SortKey) (resource : Json) : Option Json :=
  (Json.collect [resource] k.keys).find? Json.isPresent

/-- Whether a resource has no value under the key, or one of the attribute's type. -/
def isReadable (k : SortKey) (resource : Json) : Bool :=
  (k.firstValue? resource).all fun v => (TypedValue.ofJson? k.traits.type v).isSome

/-- The ascending order of two resources. -/
def order (k : SortKey) (a b : Json) : Ordering :=
  match k.firstValue? a, k.firstValue? b with
  | some v, some w =>
    ((TypedValue.ofJson? k.traits.type w).bind
      (TypedValue.orderFrom? · k.traits.caseExact v)).getD .eq
  | some _, none => .lt
  | none, some _ => .gt
  | none, none => .eq

end SortKey

end Roster
