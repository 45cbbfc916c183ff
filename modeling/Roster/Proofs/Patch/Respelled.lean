import Roster.Patch.Apply
import Roster.Proofs.Expression.Respelled
import Roster.Proofs.Patch.Checked
import Roster.Proofs.Query.Bracketed
import Roster.Proofs.Query.Discreet
import Roster.Query.Compile

/-!
Filters and paths whose texts differ in the case of letters outside their quotes. Names are looked
up in whatever case, so that the conditions are the same, and the paths address the same attribute,
the same elements of it and the same sub-attribute.
-/

namespace Roster

open Expression (Agrees)

variable {r : Registry} {kind : Kind}

theorem Scope.find?_respelled (scope : Scope) (name : String) :
    scope.find? kind (respelled name) = scope.find? kind name :=
  findAttribute?_congr _ (sameName_respelled name)

theorem Attribute.subAttribute?_respelled (a : Attribute) (name : String) :
    a.subAttribute? (respelled name) = a.subAttribute? name :=
  findAttribute?_congr _ (sameName_respelled name)

theorem Scope.qualified?_respelled (scope : Scope) (schema : Option String) :
    scope.qualified? r kind (schema.map Roster.respelled) = scope.qualified? r kind schema := by
  cases schema with
  | none => rfl
  | some urn =>
    cases scope with
    | members attributes => rfl
    | resource =>
      have hcore : isCoreSchema (Roster.respelled urn) = isCoreSchema urn :=
        Expression.isCoreSchema_sameName (sameName_respelled urn)
      simp only [Scope.qualified?, Option.map_some, hcore,
        Place.extension?_congr r kind (sameName_respelled urn)]

theorem AttributePath.reach_respelled (a : AttributePath) (front : List String) (inside : Scope) :
    Agrees id (a.reach kind front inside) (a.respelled.reach kind front inside) := by
  obtain ⟨schema, name, sub⟩ := a
  simp only [reach, AttributePath.respelled, Scope.find?_respelled]
  cases inside.find? kind name with
  | none => exact .error rfl
  | some top =>
    cases sub with
    | none => exact .ok _
    | some sub =>
      simp only [Option.map_some, Attribute.subAttribute?_respelled]
      cases top.subAttribute? sub with
      | none => exact .error rfl
      | some s => exact .ok _

theorem AttributePath.resolve_respelled (scope : Scope) (a : AttributePath) :
    Agrees id (a.resolve r kind scope) (a.respelled.resolve r kind scope) := by
  have hplace : scope.qualified? r kind a.respelled.schema = scope.qualified? r kind a.schema :=
    Scope.qualified?_respelled scope a.schema
  rw [resolve_eq, resolve_eq, hplace]
  cases scope.qualified? r kind a.schema with
  | none => exact .error rfl
  | some place => exact a.reach_respelled place.1 place.2

theorem compileComparison_respelled (scope : Scope) (a : AttributePath) (op : CompareOp)
    (value : Literal) : Agrees id (compileComparison r kind scope a op value)
      (compileComparison r kind scope a.respelled op value) := by
  refine (AttributePath.resolve_respelled scope a).bind fun resolved _ => ?_
  refine .test (fun _ => .error rfl) fun _ => ?_
  simp only [id]
  cases value.typed op resolved.compared.traits.type with
  | ok literal => exact .ok _
  | error fault => exact .error rfl

/-- A filter with its names in small letters is the same condition, or is refused as the filter
is. -/
theorem Filter.compile_respelled (scope : Scope) (f : Filter) :
    Agrees id (f.compile r kind scope) (f.respelled.compile r kind scope) := by
  induction f generalizing scope with
  | compare a op value => exact compileComparison_respelled scope a op value
  | present a =>
    exact (AttributePath.resolve_respelled scope a).bind fun resolved _ => .ok _
  | select a f ih =>
    refine (AttributePath.resolve_respelled scope a).bind fun resolved _ => ?_
    refine .test (fun _ => .error rfl) fun _ => ?_
    exact (ih _).bind fun inner _ => .ok _
  | and f g ihf ihg =>
    exact (ihf scope).bind fun left _ => (ihg scope).bind fun right _ => .ok _
  | or f g ihf ihg =>
    exact (ihf scope).bind fun left _ => (ihg scope).bind fun right _ => .ok _
  | not f ih => exact (ih scope).bind fun inner _ => .ok _
  | group f ih => exact ih scope

theorem Segment.filter?_respelled (s : Segment) :
    s.respelled.filter? = s.filter?.map Roster.respelled := by
  cases s <;> rfl

theorem Segment.parsedFilter_respelled (s : Segment) :
    Mirrors (fun _ => ()) (Option.map Filter.respelled) s.parsedFilter
      s.respelled.parsedFilter := by
  unfold parsedFilter
  rw [filter?_respelled]
  cases s.filter? with
  | none => exact .ok none
  | some text => exact (Filter.parse_respelled text).map fun _ _ => rfl

/-- A segment with its names in small letters has the filter with its names in small letters. -/
theorem Segment.filterOrError_respelled (s : Segment) :
    Agrees (Option.map Filter.respelled) s.filterOrError s.respelled.filterOrError := by
  unfold filterOrError
  rcases s.parsedFilter_respelled.outcomes with ⟨e, e', he, he', -⟩ | ⟨f, hf, hf'⟩
  · rw [he, he']
    exact .error rfl
  · rw [hf, hf']
    exact .ok f

/-! ### What paths address -/

/-- The target of a path that names the same in small letters. -/
def Target.respelled (path : String) (t : Target) : Target :=
  { t with path, filter := t.filter.map Filter.respelled }

theorem Segment.isSchemaUrn_respelled (s : Segment) :
    s.respelled.isSchemaUrn = s.isSchemaUrn := by
  cases s with
  | name n => exact isUrn_congr (sameName_respelled n)
  | _ => rfl

theorem Segment.name?_respelled (s : Segment) :
    s.respelled.name? = s.name?.map Roster.respelled := by
  cases s <;> rfl

theorem Attribute.lastSub_respelled (a : Attribute) (path path' : String)
    (segments : List Segment) :
    Agrees id (a.lastSub path segments) (a.lastSub path' (segments.map Segment.respelled)) := by
  cases segments with
  | nil => exact .ok none
  | cons s rest =>
    cases s with
    | selection n f => exact .error rfl
    | test f => exact .error rfl
    | name n =>
      simp only [List.map_cons, Segment.respelled, Attribute.lastSub, List.isEmpty_map,
        Attribute.subAttribute?_respelled]
      refine .test (fun _ => .error rfl) fun _ => ?_
      cases a.subAttribute? n with
      | none => exact .error rfl
      | some sub => exact .test (fun _ => .error rfl) fun _ => .ok (some sub)

theorem Attribute.select_respelled (a : Attribute) (filter : Option Filter) (held : Option Json) :
    Agrees id (a.select r kind filter held)
      (a.select r kind (filter.map Filter.respelled) held) := by
  cases filter with
  | none => exact .ok _
  | some f => exact (Filter.compile_respelled _ f).bind fun c _ => .ok _

variable (r kind) in
theorem resolveSegments_respelled (path path' : String) (resource : Json)
    (extension : Option String) (scope : Scope) (container : List String)
    (segments : List Segment) :
    Agrees (Target.respelled path')
      (resolveSegments r kind path resource extension scope container segments)
      (resolveSegments r kind path' resource extension scope container
        (segments.map Segment.respelled)) := by
  induction segments generalizing scope container with
  | nil => exact .error rfl
  | cons s rest ih =>
    simp only [List.map_cons, resolveSegments, Segment.isSchemaUrn_respelled,
      Segment.name?_respelled, Segment.filter?_respelled, Option.isSome_map, List.isEmpty_map]
    refine .test (fun _ => .error rfl) fun _ => ?_
    cases s.name? with
    | none => exact .error rfl
    | some name =>
      simp only [Option.map_some, Scope.find?_respelled]
      cases scope.find? kind name with
      | none => exact .error rfl
      | some a =>
        refine .test (fun _ => .error rfl) fun _ => ?_
        refine .test (fun _ => .error rfl) fun _ => ?_
        -- a singular complex attribute is entered, any other one is what the path addresses
        refine .test (fun _ => .test (fun _ => .error rfl) fun _ => ih _ _) fun _ => ?_
        refine s.filterOrError_respelled.bind fun filter _ => ?_
        refine (a.select_respelled filter _).bind fun selection _ => ?_
        refine (a.lastSub_respelled path path' rest).bind fun sub _ => ?_
        exact .ok _

variable (r kind) in
theorem Expression.resolve_respelled (e : Expression) (resource : Json) :
    Agrees (Target.respelled e.respelled.normalized) (e.resolve r kind resource)
      (e.respelled.resolve r kind resource) := by
  have hsegments (extension : Option String) (scope : Scope) (container : List String)
      (segments : List Segment) := resolveSegments_respelled r kind e.normalized
        e.respelled.normalized resource extension scope container segments
  obtain ⟨segments⟩ := e
  cases segments with
  | nil => exact .error rfl
  | cons s rest =>
    cases s with
    | selection n f => exact hsegments none .resource [] (.selection n f :: rest)
    | test f => exact hsegments none .resource [] (.test f :: rest)
    | name urn =>
      have hurn : isUrn (Roster.respelled urn) = isUrn urn := isUrn_congr (sameName_respelled urn)
      have hextension := Place.extension?_congr r kind (sameName_respelled urn)
      simp only [Expression.resolve, Expression.respelled, List.map_cons, Segment.respelled, hurn,
        hextension, List.isEmpty_map]
      refine .test (fun _ => ?_) fun _ => hsegments none .resource [] (.name urn :: rest)
      cases r.extension? kind urn with
      | none => exact .error rfl
      | some s => exact .test (fun _ => .ok _) fun _ => hsegments (some s.id) _ [s.id] rest

variable (r kind) in
/-- What two spellings of a path address in a resource differs in the spelling of a filter alone. -/
theorem resolveText_sameSpelling {p q : String} (h : SameSpelling p q) (resource : Json) :
    (∃ e e', resolveText r kind p resource = .error e ∧ resolveText r kind q resource = .error e' ∧
        e.type = e'.type) ∨
      ∃ t t' path, resolveText r kind p resource = .ok t ∧
        resolveText r kind q resource = .ok t' ∧ t.respelled path = t'.respelled path := by
  have hp := Expression.parse_respelled r p
  have hq := Expression.parse_respelled r q
  rw [show respelled p = respelled q from h] at hp
  rcases hp.common hq with ⟨e, e', he, he', htype⟩ | ⟨e, e', he, he', hsame⟩
  · left
    simp only [resolveText, he, he']
    exact ⟨_, _, rfl, rfl, htype⟩
  · simp only [resolveText, he, he']
    have ht := Expression.resolve_respelled r kind e resource
    have ht' := Expression.resolve_respelled r kind e' resource
    rw [hsame] at ht
    rcases ht.common ht' with ⟨f, f', hf, hf', htype⟩ | ⟨t, t', htarget, htarget', hsame⟩
    · left
      simp only [bind, Except.bind, hf, hf']
      exact ⟨_, _, rfl, rfl, htype⟩
    · right
      simp only [bind, Except.bind, htarget, htarget']
      exact ⟨t, t', _, rfl, rfl, hsame⟩

end Roster
