import Roster.Proofs.Expression.Comparison
import Roster.Proofs.Query.Compile

/-!
Equality and inequality of one path with one value. The two differ in the comparison at the end
of the same steps. On one value the comparisons are complements, but a query asks that some value
satisfies its comparison: two queries are complements of one resource when the comparison is tried
there on at least one value, with the same result on all of them.
-/

namespace Roster

/-! ### What a query tries its last comparison on -/

/-- The condition inside the selections of a condition. -/
def Condition.core : Condition → Condition
  | .any _ inner => inner.core
  | c => c

/-- The values of a value that the condition inside the selections is tried on. -/
def Condition.tried : Condition → Json → List Json
  | .any keys inner, v => (Json.collect [v] keys).flatMap inner.tried
  | _, v => [v]

theorem Condition.holds_tried (c : Condition) (v : Json) :
    c.holds v = (c.tried v).any c.core.holds := by
  induction c generalizing v with
  | any keys inner ih =>
    simp only [holds, tried, core, List.any_flatMap]
    exact congrArg (List.any _) (funext ih)
  | _ => simp [tried, core]

namespace Step

/-- The filter that a step applies. -/
def filter? : Step → Option Condition
  | .extension _ => none
  | .attribute _ filter => filter
  | .test f => some f

/-- The values that a step reaches, before its filter. -/
def reached (values : List Json) : Step → List Json
  | .extension urn => values.filterMap fun v => v.member? urn
  | .attribute name _ => values.flatMap fun v => ((v.member? name).map Json.flatten).getD []
  | .test _ => values

theorem advance_filter {values : List Json} {c : Condition} : ∀ {s : Step}, s.filter? = some c →
    s.advance values = (s.reached values).filter c.holds
  | .attribute _ _, rfl => rfl
  | .test _, rfl => rfl

end Step

/-- The values of a resource that the last comparison of a query is tried on. -/
def Query.tried (q : Query) (resource : Json) : List Json :=
  let values := q.steps.dropLast.foldl Step.advance [resource]
  match q.steps.getLast? with
  | none => values
  | some s =>
    match s.filter? with
    | none => s.reached values
    | some c => (s.reached values).flatMap c.tried

/-- The last comparison of a query. -/
def Query.core? (q : Query) : Option Condition :=
  (q.steps.getLast?.bind Step.filter?).map Condition.core

/-- The last comparison of a query is tried on some value of a resource, with the same result on
all of them. -/
def Query.Unanimous (q : Query) (resource : Json) : Prop :=
  q.tried resource ≠ [] ∧ ∀ c ∈ q.core?, ∀ v ∈ q.tried resource, ∀ w ∈ q.tried resource,
    c.holds v = c.holds w

theorem Query.holds_tried {q : Query} {front : List Step} {s : Step} {c : Condition}
    (hsteps : q.steps = front ++ [s]) (hfilter : s.filter? = some c) (resource : Json) :
    q.holds resource = (q.tried resource).any c.core.holds := by
  have htried : q.tried resource =
      (s.reached (front.foldl Step.advance [resource])).flatMap c.tried := by
    simp [tried, hsteps, hfilter]
  have hselect : q.select resource =
      (s.reached (front.foldl Step.advance [resource])).filter c.holds := by
    rw [select, hsteps, List.foldl_append, List.foldl_cons, List.foldl_nil,
      Step.advance_filter hfilter]
  rw [holds, htried, hselect, List.any_flatMap, ← funext c.holds_tried, Bool.eq_iff_iff]
  simp

/-! ### Complements -/

/-- Conditions with equality in one where the other has inequality. -/
inductive Condition.Opposes : Condition → Condition → Prop where
  | compare {keys : List String} {literal : TypedValue} {caseExact : Bool} :
    Opposes (.compare keys .eq literal caseExact) (.compare keys .ne literal caseExact)
  | any {keys : List String} {c d : Condition} (h : Opposes c d) :
    Opposes (.any keys c) (.any keys d)

theorem compareAny_ne (literal : TypedValue) (caseExact : Bool) (values : List Json) :
    compareAny .ne literal caseExact values = !compareAny .eq literal caseExact values := by
  cases literal <;> simp [compareAny]

theorem Condition.Opposes.tried {c d : Condition} (h : c.Opposes d) : d.tried = c.tried := by
  funext v
  induction h generalizing v with
  | compare => rfl
  | any _ ih =>
    simp only [Condition.tried]
    exact congrArg (List.flatMap · _) (funext ih)

theorem Condition.Opposes.core {c d : Condition} (h : c.Opposes d) (v : Json) :
    d.core.holds v = !c.core.holds v := by
  induction h with
  | compare => exact compareAny_ne _ _ _
  | any _ ih => exact ih

/-- Steps that put opposed filters on the same values. -/
inductive Step.Opposes : Step → Step → Prop where
  | selection {name : String} {c d : Condition} (h : c.Opposes d) :
    Opposes (.attribute name (some c)) (.attribute name (some d))
  | test {c d : Condition} (h : c.Opposes d) : Opposes (.test c) (.test d)

theorem Step.Opposes.filters {s s' : Step} (h : s.Opposes s') :
    ∃ c d, s.filter? = some c ∧ s'.filter? = some d ∧ c.Opposes d := by
  cases h with
  | selection h => exact ⟨_, _, rfl, rfl, h⟩
  | test h => exact ⟨_, _, rfl, rfl, h⟩

theorem Step.Opposes.reached {s s' : Step} (h : s.Opposes s') (values : List Json) :
    s'.reached values = s.reached values := by
  cases h <;> rfl

/-- Some element fails a test exactly when no element passes it: the list is not empty, and the
test is the same on all of it. -/
theorem any_not_iff {α : Type} {p : α → Bool} {l : List α} :
    l.any (fun a => !p a) = !l.any p ↔ l ≠ [] ∧ ∀ a ∈ l, ∀ b ∈ l, p a = p b := by
  cases l with
  | nil => simp
  | cons a l =>
    have hhead : (∀ b ∈ a :: l, ∀ c ∈ a :: l, p b = p c) ↔ ∀ b ∈ a :: l, p b = p a := by
      constructor
      · intro h b hb
        exact h b hb a List.mem_cons_self
      · intro h b hb c hc
        exact (h b hb).trans (h c hc).symm
    rw [hhead]
    cases ha : p a
    · simp [ha]
    · simp [ha]

/-- Queries that end with opposed steps are complements of a resource exactly when the last
comparison of the one is tried there, with one result. -/
theorem Query.complement_iff {q q' : Query} {front : List Step} {s s' : Step}
    (hsteps : q.steps = front ++ [s]) (hsteps' : q'.steps = front ++ [s']) (h : s.Opposes s')
    (resource : Json) : q'.holds resource = !q.holds resource ↔ q.Unanimous resource := by
  obtain ⟨c, d, hc, hd, hopposed⟩ := h.filters
  have htried : q'.tried resource = q.tried resource := by
    simp [tried, hsteps, hsteps', hc, hd, h.reached, hopposed.tried]
  have hcore : q.core? = some c.core := by
    simp [core?, hsteps, hc]
  rw [holds_tried hsteps' hd, holds_tried hsteps hc, htried, funext hopposed.core,
    any_not_iff, Unanimous, hcore]
  simp

/-! ### Compiling -/

theorem AttributeType.supports_ne (type : AttributeType) :
    type.supports .ne = type.supports .eq := by
  cases type <;> rfl

theorem Literal.typed_ne {type : AttributeType} {v : Literal} {t : TypedValue}
    (h : v.typed .eq type = .ok t) : v.typed .ne type = .ok t := by
  cases v <;> exact h

variable {r : Registry} {kind : Kind} {scope : Scope} {v : Literal} {f : CompareOp → Filter}

theorem compileComparison_opposes {a : AttributePath} {c : Condition}
    (h : compileComparison r kind scope a .eq v = .ok c) :
    ∃ d, compileComparison r kind scope a .ne v = .ok d ∧ c.Opposes d := by
  obtain ⟨resolved, t, hresolved, hsupports, htyped, rfl⟩ := compileComparison_eq_ok.mp h
  refine ⟨_, compileComparison_eq_ok.mpr
    ⟨resolved, t, hresolved, ?_, Literal.typed_ne htyped, rfl⟩, .compare⟩
  rwa [AttributeType.supports_ne]

namespace Expression

open Filter (comparisonText scanLiteral)

theorem Compares.opposes {c : Condition} (h : Compares v f)
    (hc : (f .eq).compile r kind scope = .ok c) :
    ∃ d, (f .ne).compile r kind scope = .ok d ∧ c.Opposes d := by
  cases h with
  | compare _ => exact compileComparison_opposes hc
  | select ha hsub hb =>
    obtain ⟨resolved, inner, hresolved, htype, hinner, rfl⟩ := Filter.compile_select.mp hc
    obtain ⟨d, hd, hopposed⟩ := compileComparison_opposes hinner
    exact ⟨_, Filter.compile_select.mpr ⟨resolved, d, hresolved, htype, hd, rfl⟩, .any hopposed⟩

/-- A comparison is read from its text with every operator or with none. -/
theorem Compares.parse_toText (h : Compares v f) (hv : v.WellFormed) {g : Filter}
    {op : CompareOp} (hread : Filter.parse (f op).toText = .ok g) :
    g = f op ∧ ∀ op', Filter.parse (f op').toText = .ok (f op') := by
  obtain ⟨hlen, hreadable, hself⟩ := (Filter.parse_toText (h.wellFormed hv op)).mp hread
  refine ⟨hself, fun op' => (Filter.parse_toText (h.wellFormed hv op')).mpr ⟨?_, ?_, rfl⟩⟩
  · refine le_of_eq_of_le ?_ hlen
    cases h <;> simp [Filter.toText, word_length]
  · cases h with
    | compare _ => exact ⟨hreadable.depth, hreadable.names⟩
    | select ha hsub hb => exact ⟨hreadable.depth, hreadable.names⟩

theorem Ending.opposes {ending : String → Segment} {step : Step} {last : Scope}
    (hending : Ending ending) (h : Compares v f) (hv : v.WellFormed)
    (hstep : (ending (f .eq).toText).Compiles r kind scope step last) :
    ∃ step', (ending (f .ne).toText).Compiles r kind scope step' last ∧ step.Opposes step' := by
  cases hending with
  | test =>
    cases hstep with
    | test hread hc =>
      obtain ⟨rfl, hreads⟩ := h.parse_toText hv hread
      obtain ⟨d, hd, hopposed⟩ := h.opposes hc
      exact ⟨_, .test (hreads .ne) hd, .test hopposed⟩
  | selection =>
    cases hstep with
    | selection hfind htype hread hc =>
      obtain ⟨rfl, hreads⟩ := h.parse_toText hv hread
      obtain ⟨d, hd, hopposed⟩ := h.opposes hc
      exact ⟨_, .selection hfind htype (hreads .ne) hd, .selection hopposed⟩

variable {a : AttributePath} {value : String} {e : Expression} {q : Query}

/-- The comparison of a name is tried on the whole resource. -/
theorem compile_plain {op : CompareOp} {name : String} (hname : isAttributeName name.toList = true)
    (hv : scanLiteral value.toList = .ok (v, []))
    (hread : parse r (comparisonText name op value) = .ok e)
    (hcompile : e.compile r kind = .ok q) (resource : Json) : q.tried resource = [resource] := by
  have hwell : (Filter.compare (.ofName name) op v).WellFormed :=
    ⟨.ofName hname, Filter.scanLiteral_gives hv⟩
  rw [parse_plain hname hv hread, ← List.nil_append [Segment.test _], compile_snoc rfl] at hcompile
  obtain ⟨front, step, next, last, hfront, hstep, hsteps⟩ := hcompile
  obtain ⟨rfl, rfl⟩ := compilesTo_nil.mp hfront
  cases hstep with
  | test hparse hc =>
    obtain ⟨-, -, rfl⟩ := (Filter.parse_toText hwell).mp hparse
    obtain ⟨resolved, t, -, -, -, rfl⟩ := compileComparison_eq_ok.mp hc
    simp [Query.tried, hsteps, Step.filter?, Step.reached, Condition.tried]

/-- Where the equality of a path with a value is read and compiled, so is the inequality. The one
holds of a resource where the other does not, exactly when the comparison is tried there on some
value and with one result; for a plain name this is everywhere. -/
theorem compile_ne (ha : Spelled a) (hv : scanLiteral value.toList = .ok (v, []))
    (hread : parse r (comparisonText a.toText .eq value) = .ok e)
    (hcompile : e.compile r kind = .ok q) :
    ∃ e' q', parse r (comparisonText a.toText .ne value) = .ok e' ∧
      e'.compile r kind = .ok q' ∧
        (∀ resource, q'.holds resource = !q.holds resource ↔ q.Unanimous resource) ∧
          (a.schema = none → a.sub = none → ∀ resource, q.Unanimous resource) := by
  have hwell : v.WellFormed := Filter.scanLiteral_gives hv
  obtain ⟨before, ending, f, hending, hf, hsegments, hreads⟩ := parse_operators ha hv hread
  have hfilter (text : String) : (ending text).filter?.isSome = true := by
    cases hending <;> rfl
  have hlast := hcompile
  rw [show e = ⟨before ++ [ending (f .eq).toText]⟩ from congrArg mk hsegments] at hlast
  obtain ⟨front, step, next, last, hfront, hstep, hsteps⟩ := (compile_snoc (hfilter _)).mp hlast
  obtain ⟨step', hstep', hopposed⟩ := hending.opposes hf hwell hstep
  refine ⟨_, ⟨front ++ [step']⟩, hreads .ne, ?_, ?_, fun hschema hsub resource => ?_⟩
  · exact (compile_snoc (hfilter _)).mpr ⟨front, step', next, last, hfront, hstep', rfl⟩
  · exact Query.complement_iff hsteps rfl hopposed
  · have htext : a.toText = a.name := by
      simp [AttributePath.toText, hschema, hsub]
    rw [htext] at hread
    have htried := compile_plain ha.name hv hread hcompile resource
    simp [Query.Unanimous, htried]

/-- A comparison of a name inside an attribute, of a user with that attribute. -/
theorem compile_ne_name : ∃ e q, parse .standard "name.givenName ne \"x\"" = .ok e ∧
    e.compile .standard .user = .ok q ∧
      q.holds (.obj [("name", .obj [("givenName", .str "Jo")]), ("userName", .str "bj")]) =
        true := by
  let owned : Query := ⟨[.attribute "name" (some (.compare ["givenName"] .eq (.text "x") false))]⟩
  have hread : parse .standard "name.givenName eq \"x\"" =
      .ok ⟨[.selection "name" "givenName eq \"x\""]⟩ := by decide +kernel
  have hcompile :
      (⟨[.selection "name" "givenName eq \"x\""]⟩ : Expression).compile .standard .user =
        .ok owned := by decide +kernel
  have hspelled : Spelled ⟨none, "name", some "givenName"⟩ :=
    ⟨by decide, by decide, by decide⟩
  have hvalue : scanLiteral "\"x\"".toList = .ok (.text "x", []) := by decide
  obtain ⟨e, q, he, hq, hcomplement, -⟩ := compile_ne hspelled hvalue hread hcompile
  refine ⟨e, q, he, hq, ?_⟩
  have htried : owned.tried (.obj [("name", .obj [("givenName", .str "Jo")]),
      ("userName", .str "bj")]) = [.obj [("givenName", .str "Jo")]] := by rfl
  rw [(hcomplement _).mpr ⟨by simp [htried], by simp [htried]⟩]
  decide +kernel

/-- Neither of the two holds of a user without the attribute that has the name. -/
theorem compile_ne_absent :
    let unnamed : Json := .obj [("userName", .str "bj")]
    ∃ e q e' q', parse .standard "name.givenName eq \"x\"" = .ok e ∧
      e.compile .standard .user = .ok q ∧
      parse .standard "name.givenName ne \"x\"" = .ok e' ∧
      e'.compile .standard .user = .ok q' ∧
      q.holds unnamed = false ∧ q'.holds unnamed = false := by
  let owned (op : CompareOp) : Query :=
    ⟨[.attribute "name" (some (.compare ["givenName"] op (.text "x") false))]⟩
  exact ⟨⟨[.selection "name" "givenName eq \"x\""]⟩, owned .eq,
    ⟨[.selection "name" "givenName ne \"x\""]⟩, owned .ne, by decide +kernel, by decide +kernel,
    by decide +kernel, by decide +kernel, by decide +kernel, by decide +kernel⟩

end Expression

end Roster
