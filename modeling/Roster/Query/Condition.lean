import Roster.Query.Value

/-!
Compiled filters. A condition holds of one value; a query narrows the values in scope step by step
and holds of a resource when any are left.
-/

namespace Roster

/-- What a list of names reaches from values, lists opened at every step. -/
def Json.collect (values : List Json) : List String → List Json
  | [] => values
  | key :: keys =>
    Json.collect (values.flatMap fun v => ((v.member? key).map Json.flatten).getD []) keys

inductive Condition where
  | compare (keys : List String) (op : CompareOp) (literal : TypedValue) (caseExact : Bool)
  | present (keys : List String)
  | any (keys : List String) (inner : Condition)
  | and (left right : Condition)
  | or (left right : Condition)
  | not (inner : Condition)
deriving DecidableEq, Repr, Inhabited

/-- Whether any of the values stands in a relation to the literal. Equality with null asks that
none is assigned, and inequality that none is equal. -/
def compareAny (op : CompareOp) (literal : TypedValue) (caseExact : Bool) (values : List Json) :
    Bool :=
  match op, literal with
  | .eq, .null => !values.any Json.isPresent
  | .ne, .null => values.any Json.isPresent
  | .ne, literal => !values.any (literal.test .eq caseExact)
  | op, literal => values.any (literal.test op caseExact)

/-- Whether a value satisfies a condition. -/
def Condition.holds : Condition → Json → Bool
  | .compare keys op literal caseExact, v => compareAny op literal caseExact (Json.collect [v] keys)
  | .present keys, v => (Json.collect [v] keys).any Json.isPresent
  | .any keys inner, v => (Json.collect [v] keys).any inner.holds
  | .and f g, v => f.holds v && g.holds v
  | .or f g, v => f.holds v || g.holds v
  | .not f, v => !f.holds v

/-- A step from the values in scope to further ones. -/
inductive Step where
  | extension (urn : String)
  | attribute (name : String) (filter : Option Condition)
  | test (filter : Condition)
deriving DecidableEq, Repr, Inhabited

/-- The values in scope after a step. -/
def Step.advance (values : List Json) : Step → List Json
  | .extension urn => values.filterMap fun v => v.member? urn
  | .attribute name filter =>
    let reached := values.flatMap fun v => ((v.member? name).map Json.flatten).getD []
    match filter with
    | some f => reached.filter f.holds
    | none => reached
  | .test f => values.filter f.holds

structure Query where
  steps : List Step
deriving DecidableEq, Repr, Inhabited

/-- The values left in scope of a resource. -/
def Query.select (q : Query) (resource : Json) : List Json :=
  q.steps.foldl Step.advance [resource]

/-- Whether a resource satisfies a query. -/
def Query.holds (q : Query) (resource : Json) : Bool :=
  !(q.select resource).isEmpty

end Roster
