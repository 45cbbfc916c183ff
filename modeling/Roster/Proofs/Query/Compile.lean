import Roster.Proofs.Filter.Exact
import Roster.Query.Compile

/-!
What segments are compiled to, one by one: a segment in a scope gives one step, and the scope in
which the segment behind it is compiled. Only the errors know the text of the whole path.
-/

namespace Roster

/-- The step that a segment is compiled to in a scope, and the scope behind it. -/
inductive Segment.Compiles (r : Registry) (kind : Kind) :
    Scope → Segment → Step → Scope → Prop where
  | extension {scope : Scope} {urn : String} {s : Schema} (hurn : isUrn urn = true)
      (h : r.extension? kind urn = some s) :
    Compiles r kind scope (.name urn) (.extension s.id) (.members s.attributes)
  | name {scope : Scope} {name : String} {a : Attribute} (hurn : isUrn name = false)
      (h : scope.find? kind name = some a) :
    Compiles r kind scope (.name name) (.attribute a.name none) (.members a.subAttributes)
  | selection {scope : Scope} {name text : String} {a : Attribute} {f : Filter} {c : Condition}
      (h : scope.find? kind name = some a) (htype : a.type = .complex)
      (hread : Filter.parse text = .ok f)
      (hinner : f.compile r kind (.members a.subAttributes) = .ok c) :
    Compiles r kind scope (.selection name text) (.attribute a.name (some c))
      (.members a.subAttributes)
  | test {scope : Scope} {text : String} {f : Filter} {c : Condition}
      (hread : Filter.parse text = .ok f) (h : f.compile r kind scope = .ok c) :
    Compiles r kind scope (.test text) (.test c) scope

/-- The steps of segments in a row, and the scope behind them. -/
inductive CompilesTo (r : Registry) (kind : Kind) :
    Scope → List Segment → List Step → Scope → Prop where
  | nil {scope : Scope} : CompilesTo r kind scope [] [] scope
  | cons {scope next last : Scope} {s : Segment} {segments : List Segment} {step : Step}
      {steps : List Step} (h : s.Compiles r kind scope step next)
      (hrest : CompilesTo r kind next segments steps last) :
    CompilesTo r kind scope (s :: segments) (step :: steps) last

variable {r : Registry} {kind : Kind} {path : String} {scope last : Scope}
variable {segments : List Segment} {steps : List Step}

theorem compilesTo_nil :
    CompilesTo r kind scope [] steps last ↔ steps = [] ∧ last = scope := by
  constructor
  · intro h
    cases h
    exact ⟨rfl, rfl⟩
  · rintro ⟨rfl, rfl⟩
    exact .nil

theorem compilesTo_cons {s : Segment} : CompilesTo r kind scope (s :: segments) steps last ↔
    ∃ step next rest, s.Compiles r kind scope step next ∧
      CompilesTo r kind next segments rest last ∧ steps = step :: rest := by
  constructor
  · intro h
    cases h with
    | cons hfirst hrest => exact ⟨_, _, _, hfirst, hrest, rfl⟩
  · rintro ⟨step, next, rest, hfirst, hrest, rfl⟩
    exact .cons hfirst hrest

theorem compilesTo_append {more : List Segment} :
    CompilesTo r kind scope (segments ++ more) steps last ↔
      ∃ front back next, CompilesTo r kind scope segments front next ∧
        CompilesTo r kind next more back last ∧ steps = front ++ back := by
  induction segments generalizing scope steps with
  | nil =>
    constructor
    · intro h
      exact ⟨[], steps, scope, .nil, h, rfl⟩
    · rintro ⟨front, back, next, hfront, hback, rfl⟩
      cases hfront
      exact hback
  | cons s segments ih =>
    rw [List.cons_append, compilesTo_cons]
    constructor
    · rintro ⟨step, next, rest, hfirst, hrest, rfl⟩
      obtain ⟨front, back, behind, hfront, hback, rfl⟩ := ih.mp hrest
      exact ⟨step :: front, back, behind, .cons hfirst hfront, hback, rfl⟩
    · rintro ⟨front, back, behind, hfront, hback, rfl⟩
      cases hfront with
      | cons hfirst hfront =>
        exact ⟨_, _, _, hfirst, ih.mpr ⟨_, back, behind, hfront, hback, rfl⟩, rfl⟩

/-! ### Filters -/

section Filters

variable {a : AttributePath} {f g : Filter} {c : Condition}

/-- The comparison that an attribute path is compiled to. -/
theorem compileComparison_eq_ok {op : CompareOp} {v : Literal} :
    compileComparison r kind scope a op v = .ok c ↔
      ∃ resolved literal, a.resolve r kind scope = .ok resolved ∧
        resolved.compared.traits.type.supports op = true ∧
        v.typed op resolved.compared.traits.type = .ok literal ∧
        c = .compare resolved.compared.keys op literal resolved.compared.traits.caseExact := by
  constructor
  · intro h
    obtain ⟨resolved, hresolved, h⟩ := bind_eq_ok.mp h
    obtain ⟨hsupports, h⟩ := guard_eq_ok.mp h
    split at h
    case h_2 => cases h
    case h_1 literal hliteral =>
      cases h
      exact ⟨resolved, literal, hresolved, by simpa using hsupports, hliteral, rfl⟩
  · rintro ⟨resolved, literal, hresolved, hsupports, hliteral, rfl⟩
    refine bind_eq_ok.mpr ⟨resolved, hresolved, guard_eq_ok.mpr ⟨by simp [hsupports], ?_⟩⟩
    rw [hliteral]

namespace Filter

theorem compile_present : (present a).compile r kind scope = .ok c ↔
    ∃ resolved, a.resolve r kind scope = .ok resolved ∧ c = .present resolved.keys := by
  rw [compile, bind_eq_ok]
  simp only [Except.ok.injEq, eq_comm]

theorem compile_select : (select a f).compile r kind scope = .ok c ↔
    ∃ owner d, a.resolve r kind scope = .ok owner ∧ owner.traits.type = .complex ∧
      f.compile r kind (.members owner.subAttributes) = .ok d ∧ c = .any owner.keys d := by
  rw [compile, bind_eq_ok]
  refine exists_congr fun owner => ?_
  rw [guard_eq_ok, bind_eq_ok]
  constructor
  · rintro ⟨howner, htype, d, hd, h⟩
    cases h
    exact ⟨d, howner, by simpa using htype, hd, rfl⟩
  · rintro ⟨d, howner, htype, hd, rfl⟩
    exact ⟨howner, by simp [htype], d, hd, rfl⟩

theorem compile_and : (and f g).compile r kind scope = .ok c ↔
    ∃ left right, f.compile r kind scope = .ok left ∧ g.compile r kind scope = .ok right ∧
      c = .and left right := by
  rw [compile, bind_eq_ok]
  simp only [bind_eq_ok, Except.ok.injEq]
  constructor
  · rintro ⟨left, hleft, right, hright, rfl⟩
    exact ⟨left, right, hleft, hright, rfl⟩
  · rintro ⟨left, right, hleft, hright, rfl⟩
    exact ⟨left, hleft, right, hright, rfl⟩

theorem compile_or : (or f g).compile r kind scope = .ok c ↔
    ∃ left right, f.compile r kind scope = .ok left ∧ g.compile r kind scope = .ok right ∧
      c = .or left right := by
  rw [compile, bind_eq_ok]
  simp only [bind_eq_ok, Except.ok.injEq]
  constructor
  · rintro ⟨left, hleft, right, hright, rfl⟩
    exact ⟨left, right, hleft, hright, rfl⟩
  · rintro ⟨left, right, hleft, hright, rfl⟩
    exact ⟨left, hleft, right, hright, rfl⟩

theorem compile_not : (not f).compile r kind scope = .ok c ↔
    ∃ inner, f.compile r kind scope = .ok inner ∧ c = .not inner := by
  rw [compile, bind_eq_ok]
  simp only [Except.ok.injEq, eq_comm]

end Filter

end Filters

theorem filterOrError_eq_ok {s : Segment} {filter : Option Filter} :
    s.filterOrError = .ok filter ↔ s.parsedFilter = .ok filter := by
  rw [Segment.filterOrError]
  cases s.parsedFilter <;> simp

theorem parsedFilter_selection {name text : String} {filter : Option Filter} :
    (Segment.selection name text).parsedFilter = .ok filter ↔
      ∃ f, Filter.parse text = .ok f ∧ some f = filter :=
  map_eq_ok

theorem parsedFilter_test {text : String} {filter : Option Filter} :
    (Segment.test text).parsedFilter = .ok filter ↔
      ∃ f, Filter.parse text = .ok f ∧ some f = filter :=
  map_eq_ok

/-- The step of a segment stands in front of those of the segments behind it. -/
theorem Segment.Compiles.compileSegments {s : Segment} {step : Step} {next : Scope}
    (h : s.Compiles r kind scope step next) :
    Roster.compileSegments r kind path scope (s :: segments) =
      (Roster.compileSegments r kind path next segments).map (step :: ·) := by
  rw [Roster.compileSegments]
  cases h with
  | extension hurn h =>
    simp [Segment.filterOrError, Segment.parsedFilter, Segment.filter?, Segment.name?,
      Segment.isSchemaUrn, hurn, h, bind, Except.bind, Except.map]
  | name hurn h =>
    simp [Segment.filterOrError, Segment.parsedFilter, Segment.filter?, Segment.name?,
      Segment.isSchemaUrn, hurn, h, bind, Except.bind, Except.map, pure, Except.pure]
  | selection h htype hread hinner =>
    simp [Segment.filterOrError, Segment.parsedFilter, Segment.filter?, Segment.name?,
      Segment.isSchemaUrn, h, htype, hread, hinner, bind, Except.bind, Except.map]
  | test hread h =>
    simp [Segment.filterOrError, Segment.parsedFilter, Segment.filter?, Segment.name?, hread, h,
      bind, Except.bind, Except.map]

theorem exists_compiles {s : Segment}
    (h : compileSegments r kind path scope (s :: segments) = .ok steps) :
    ∃ step next, s.Compiles r kind scope step next := by
  rw [compileSegments] at h
  obtain ⟨filter, hfilter, h⟩ := bind_eq_ok.mp h
  rw [filterOrError_eq_ok] at hfilter
  cases s with
  | name name =>
    cases hfilter
    simp only [Segment.name?, Segment.isSchemaUrn] at h
    cases hurn : isUrn name with
    | true =>
      cases hext : r.extension? kind name with
      | none => simp [hurn, hext] at h
      | some s => exact ⟨_, _, .extension hurn hext⟩
    | false =>
      cases hfind : scope.find? kind name with
      | none => simp [hurn, hfind] at h
      | some a => exact ⟨_, _, .name hurn hfind⟩
  | selection name text =>
    obtain ⟨f, hread, rfl⟩ := parsedFilter_selection.mp hfilter
    simp only [Segment.name?, Segment.isSchemaUrn, Bool.false_eq_true, if_false] at h
    cases hfind : scope.find? kind name with
    | none => simp [hfind] at h
    | some a =>
      simp only [hfind] at h
      by_cases htype : a.type = .complex
      case neg => simp [htype, bind, Except.bind] at h
      case pos =>
        simp only [htype, bne_self_eq_false, Bool.false_eq_true, if_false] at h
        obtain ⟨condition, hcondition, -⟩ := bind_eq_ok.mp h
        obtain ⟨c, hinner, -⟩ := map_eq_ok.mp hcondition
        exact ⟨_, _, .selection hfind htype hread hinner⟩
  | test text =>
    obtain ⟨f, hread, rfl⟩ := parsedFilter_test.mp hfilter
    simp only [Segment.name?] at h
    obtain ⟨c, hc, -⟩ := bind_eq_ok.mp h
    exact ⟨_, _, .test hread hc⟩

theorem compileSegments_cons {s : Segment} :
    compileSegments r kind path scope (s :: segments) = .ok steps ↔
      ∃ step next rest, s.Compiles r kind scope step next ∧
        compileSegments r kind path next segments = .ok rest ∧ steps = step :: rest := by
  constructor
  · intro h
    obtain ⟨step, next, hstep⟩ := exists_compiles h
    rw [hstep.compileSegments] at h
    obtain ⟨rest, hrest, rfl⟩ := map_eq_ok.mp h
    exact ⟨step, next, rest, hstep, hrest, rfl⟩
  · rintro ⟨step, next, rest, hstep, hrest, rfl⟩
    rw [hstep.compileSegments]
    exact map_eq_ok.mpr ⟨rest, hrest, rfl⟩

theorem compileSegments_eq_ok : compileSegments r kind path scope segments = .ok steps ↔
    ∃ last, CompilesTo r kind scope segments steps last := by
  induction segments generalizing scope steps with
  | nil =>
    simp only [compileSegments, compilesTo_nil, Except.ok.injEq, exists_and_left, exists_eq,
      and_true]
    exact eq_comm
  | cons s segments ih =>
    rw [compileSegments_cons]
    simp only [compilesTo_cons, ih]
    constructor
    · rintro ⟨step, next, rest, hstep, ⟨last, hrest⟩, hsteps⟩
      exact ⟨last, step, next, rest, hstep, hrest, hsteps⟩
    · rintro ⟨last, step, next, rest, hstep, hrest, hsteps⟩
      exact ⟨step, next, rest, hstep, ⟨last, hrest⟩, hsteps⟩

theorem Expression.compile_eq_ok {e : Expression} {q : Query} : e.compile r kind = .ok q ↔
    e.endsWithFilter = true ∧ ∃ last, CompilesTo r kind .resource e.segments q.steps last := by
  rw [Expression.compile, guard_eq_ok, map_eq_ok]
  simp only [Bool.not_eq_true', Bool.not_eq_false, compileSegments_eq_ok]
  refine and_congr_right fun _ => ?_
  constructor
  · rintro ⟨steps, hsteps, rfl⟩
    exact hsteps
  · intro hsteps
    exact ⟨q.steps, hsteps, rfl⟩

/-- An expression with a filter at its end: what is in front of the last segment is compiled by
itself, and gives the scope of the last. -/
theorem Expression.compile_snoc {before : List Segment} {s : Segment} {q : Query}
    (hs : s.filter?.isSome = true) :
    (⟨before ++ [s]⟩ : Expression).compile r kind = .ok q ↔
      ∃ front step next last, CompilesTo r kind .resource before front next ∧
        s.Compiles r kind next step last ∧ q.steps = front ++ [step] := by
  have hends : (⟨before ++ [s]⟩ : Expression).endsWithFilter = true := by
    simp [Expression.endsWithFilter, hs]
  rw [Expression.compile_eq_ok]
  simp only [hends, true_and, compilesTo_append]
  constructor
  · rintro ⟨last, front, back, next, hfront, hback, hsteps⟩
    obtain ⟨step, last', rest, hstep, hrest, rfl⟩ := compilesTo_cons.mp hback
    obtain ⟨rfl, rfl⟩ := compilesTo_nil.mp hrest
    exact ⟨front, step, next, last, hfront, hstep, hsteps⟩
  · rintro ⟨front, step, next, last, hfront, hstep, hsteps⟩
    exact ⟨last, front, [step], next, hfront, .cons hstep .nil, hsteps⟩

end Roster
