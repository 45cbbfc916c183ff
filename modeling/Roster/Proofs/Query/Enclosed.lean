import Roster.Proofs.Expression.Enclosed
import Roster.Proofs.Query.Compile

/-!
Filters in parentheses. A filter that is read as a path and a test is evaluated step by step, in
parentheses as one condition of the whole resource. The two agree, except behind an extension that
a resource does not have: no value is left there for a step, while a condition sees no value at
the end of its path and may hold of that.
-/

namespace Roster

/-! ### Conditions below an extension -/

/-- A condition on the members of an extension, if of one, and the same condition on the resource
that has it. -/
inductive Condition.Behind : Option String → Condition → Condition → Prop where
  | here {c : Condition} : Behind none c c
  | compare {urn key : String} {keys : List String} {op : CompareOp} {literal : TypedValue}
      {caseExact : Bool} : Behind (some urn) (.compare (key :: keys) op literal caseExact)
    (.compare (urn :: key :: keys) op literal caseExact)
  | present {urn key : String} {keys : List String} :
    Behind (some urn) (.present (key :: keys)) (.present (urn :: key :: keys))
  | any {urn key : String} {keys : List String} {inner : Condition} :
    Behind (some urn) (.any (key :: keys) inner) (.any (urn :: key :: keys) inner)

/-- Below a member that is no list, names reach the same from the value that has the member. What
is absent is as good as empty. -/
theorem Json.collect_behind {v : Json} {urn key : String} (keys : List String)
    (hv : ∀ items, v.member? urn ≠ some (.arr items)) :
    Json.collect [v] (urn :: key :: keys) =
      Json.collect [(v.member? urn).getD (.obj [])] (key :: keys) := by
  cases hmember : v.member? urn with
  | none =>
    have habsent : (Json.obj []).member? key = none := rfl
    simp [Json.collect, hmember, habsent]
  | some x =>
    have hflat : x.flatten = [x] := by
      cases x with
      | arr items => exact absurd hmember (hv items)
      | _ => rfl
    simp [Json.collect, hmember, hflat]

theorem Condition.Behind.holds {urn : String} {c d : Condition} (h : c.Behind (some urn) d)
    {v : Json}
    (hv : ∀ items, v.member? urn ≠ some (.arr items)) :
    d.holds v = c.holds ((v.member? urn).getD (.obj [])) := by
  cases h <;> simp only [Condition.holds, Json.collect_behind _ hv]

theorem Condition.behind_compare (id : Option String) (key : String) (keys : List String)
    (op : CompareOp) (literal : TypedValue) (caseExact : Bool) :
    Condition.Behind id (.compare (key :: keys) op literal caseExact)
      (.compare (id.toList ++ key :: keys) op literal caseExact) := by
  cases id with
  | none => exact .here
  | some urn => exact .compare

theorem Condition.behind_present (id : Option String) (key : String) :
    Condition.Behind id (.present [key]) (.present (id.toList ++ [key])) := by
  cases id with
  | none => exact .here
  | some urn => exact .present

theorem Condition.behind_any (id : Option String) (key : String) (inner : Condition) :
    Condition.Behind id (.any [key] inner) (.any (id.toList ++ [key]) inner) := by
  cases id with
  | none => exact .here
  | some urn => exact .any

/-! ### Steps as one condition -/

theorem Step.advance_nil : (s : Step) → s.advance [] = []
  | .extension _ => rfl
  | .attribute _ none => rfl
  | .attribute _ (some _) => rfl
  | .test _ => rfl

namespace Query

variable (name : String) (c d : Condition) (v : Json)

theorem holds_test : (Query.mk [.test c]).holds v = c.holds v := by
  cases h : c.holds v <;> simp [holds, select, Step.advance, h]

theorem holds_selection :
    (Query.mk [.attribute name (some c)]).holds v = (Condition.any [name] c).holds v := by
  rw [Bool.eq_iff_iff]
  simp [holds, select, Step.advance, Condition.holds, Json.collect]

theorem holds_narrowed : (Query.mk [.attribute name (some c), .test d]).holds v =
    (Condition.any [name] (.and c d)).holds v := by
  rw [Bool.eq_iff_iff]
  simp [holds, select, Step.advance, Condition.holds, Json.collect, and_comm]

/-- A query that begins with an extension looks at the rest in what the resource has there. -/
theorem holds_extension (urn : String) (rest : List Step) :
    (Query.mk (.extension urn :: rest)).holds v = (v.member? urn).any (Query.mk rest).holds := by
  cases h : v.member? urn with
  | none =>
    have hnone : rest.foldl Step.advance [] = [] := by
      induction rest with
      | nil => rfl
      | cons s rest ih => rwa [List.foldl_cons, s.advance_nil]
    simp [holds, select, Step.advance, h, hnone]
  | some x => simp [holds, select, Step.advance, h]

end Query

/-- A query holds of nothing: behind an extension that the resource does not have, the rest holds
of an object without members. -/
def Query.HoldsOfNothing (q : Query) (resource : Json) : Prop :=
  ∃ urn rest, q.steps = .extension urn :: rest ∧ resource.member? urn = none ∧
    (Query.mk rest).holds (.obj []) = true

theorem Query.behind_iff {q : Query} {id : Option String} {rest : List Step} {c d : Condition}
    (hsteps : q.steps = (id.map Step.extension).toList ++ rest)
    (hrest : ∀ urn, .extension urn ∉ rest) (hbehind : c.Behind id d)
    (hholds : ∀ v, (Query.mk rest).holds v = c.holds v) {resource : Json}
    (hlist : ∀ urn, .extension urn ∈ q.steps → ∀ items, resource.member? urn ≠ some (.arr items)) :
    d.holds resource = q.holds resource ↔ ¬q.HoldsOfNothing resource := by
  obtain ⟨steps⟩ := q
  subst hsteps
  cases id with
  | none =>
    cases hbehind
    have hnothing : ¬(Query.mk rest).HoldsOfNothing resource := by
      rintro ⟨urn, more, hmore, -⟩
      refine hrest urn ?_
      rw [show rest = _ from hmore]
      exact List.mem_cons_self
    exact iff_of_true (hholds resource).symm hnothing
  | some urn =>
    have hcondition := hbehind.holds (hlist urn List.mem_cons_self)
    have hquery : (Query.mk (.extension urn :: rest)).holds resource =
        (resource.member? urn).any c.holds := by
      rw [holds_extension, funext hholds]
    have hnothing : (Query.mk (.extension urn :: rest)).HoldsOfNothing resource ↔
        resource.member? urn = none ∧ c.holds (.obj []) = true := by
      rw [← hholds]
      constructor
      · rintro ⟨_, _, hmore, habsent, hempty⟩
        cases hmore
        exact ⟨habsent, hempty⟩
      · rintro ⟨habsent, hempty⟩
        exact ⟨urn, rest, rfl, habsent, hempty⟩
    change d.holds resource = (Query.mk (.extension urn :: rest)).holds resource ↔
      ¬(Query.mk (.extension urn :: rest)).HoldsOfNothing resource
    rw [hcondition, hquery, hnothing]
    cases resource.member? urn <;> simp

/-! ### Paths below an extension -/

variable {r : Registry} {kind : Kind} {scope next last : Scope}

theorem resolve_name {name : String} {a : Resolved}
    (h : (AttributePath.ofName name).resolve r kind scope = .ok a) : ∃ top,
      scope.find? kind name = some top ∧ a = ⟨[top.name], top.traits, top.subAttributes⟩ := by
  simp only [AttributePath.resolve, AttributePath.ofName, bind, Except.bind] at h
  cases hfind : scope.find? kind name with
  | none => simp [hfind] at h
  | some top =>
    simp only [hfind] at h
    cases h
    exact ⟨top, rfl, rfl⟩

namespace Expression

/-- A path is found behind the extension that it is read under. -/
theorem ReadUnder.compiled (hr : OwnUrns r) {schema ext : Option String}
    (h : ReadUnder r schema ext)
    {front : List Step}
    (hfront : CompilesTo r kind .resource (ext.map Segment.name).toList front next) :
    ∃ id : Option String, front = (id.map Step.extension).toList ∧ ∀ {name : String} {a : Resolved},
      (AttributePath.mk schema name none).resolve r kind .resource = .ok a → ∃ top,
        next.find? kind name = some top ∧
          a = ⟨id.toList ++ [top.name], top.traits, top.subAttributes⟩ := by
  cases h with
  | plain =>
    obtain ⟨rfl, rfl⟩ := compilesTo_nil.mp hfront
    exact ⟨none, rfl, resolve_name⟩
  | core hcore =>
    obtain ⟨rfl, rfl⟩ := compilesTo_nil.mp hfront
    refine ⟨none, rfl, fun {name a} ha => ?_⟩
    simp only [AttributePath.resolve, hcore, if_true, bind, Except.bind] at ha
    cases hfind : Scope.find? kind .resource name with
    | none => simp [hfind] at ha
    | some top =>
      simp only [hfind] at ha
      cases ha
      exact ⟨top, rfl, rfl⟩
  | @extension urn hknown =>
    obtain ⟨step, behind, rest, hstep, hrest, rfl⟩ := compilesTo_cons.mp hfront
    obtain ⟨rfl, rfl⟩ := compilesTo_nil.mp hrest
    cases hstep with
    | name hurn => exact absurd (hr.known hknown).1 (by simp [hurn])
    | @extension _ s hurn hext =>
      refine ⟨some s.id, rfl, fun {name a} ha => ?_⟩
      simp only [AttributePath.resolve, (hr.known hknown).2, hext, Bool.false_eq_true, if_false,
        bind, Except.bind] at ha
      cases hfind : Scope.find? kind (.members s.attributes) name with
      | none => simp [hfind] at ha
      | some top =>
        simp only [hfind] at ha
        cases ha
        exact ⟨top, rfl, rfl⟩

end Expression

theorem Resolved.compared_keys (a : Resolved) : ∃ keys, ∀ front,
    Resolved.compared ⟨front ++ a.keys, a.traits, a.subAttributes⟩ =
      ⟨front ++ (a.keys ++ keys), a.compared.traits, a.compared.subAttributes⟩ := by
  simp only [Resolved.compared]
  split
  case isFalse => exact ⟨[], fun front => by simp⟩
  case isTrue =>
    cases findAttribute? a.subAttributes "value" with
    | none => exact ⟨[], fun front => by simp⟩
    | some value => exact ⟨[value.name], fun front => by simp⟩

theorem Filter.compile_groupedIfOr (f : Filter) :
    f.groupedIfOr.compile r kind scope = f.compile r kind scope := by
  cases f <;> rfl

namespace Expression

variable {schema ext id : Option String} {name : String} {c d : Condition}

/-- A test of a name in the scope of an extension, and the same test of the path from the
resource. -/
theorem compile_retarget {t : Filter} (ht : t.testPath? = some (.ofName name))
    (hresolve : ∀ {a : Resolved},
      (AttributePath.mk schema name none).resolve r kind .resource = .ok a →
      ∃ top, next.find? kind name = some top ∧
        a = ⟨id.toList ++ [top.name], top.traits, top.subAttributes⟩)
    (hc : t.compile r kind next = .ok c)
    (hd : (t.retarget ⟨schema, name, none⟩).compile r kind .resource = .ok d) : c.Behind id d := by
  cases t with
  | compare b op v =>
    cases ht
    obtain ⟨a, literal, ha, -, htyped, rfl⟩ := compileComparison_eq_ok.mp hc
    obtain ⟨a', literal', ha', -, htyped', rfl⟩ := compileComparison_eq_ok.mp hd
    obtain ⟨top, hfind, rfl⟩ := resolve_name ha
    obtain ⟨top', hfind', rfl⟩ := hresolve ha'
    cases hfind.symm.trans hfind'
    obtain ⟨keys, hkeys⟩ := Resolved.compared_keys ⟨[top.name], top.traits, top.subAttributes⟩
    have hown := hkeys []
    have hbelow := hkeys id.toList
    simp only [List.nil_append] at hown
    rw [hown] at htyped ⊢
    rw [hbelow] at htyped' ⊢
    cases htyped.symm.trans htyped'
    exact Condition.behind_compare id top.name keys op literal _
  | present b =>
    cases ht
    obtain ⟨a, ha, rfl⟩ := Filter.compile_present.mp hc
    obtain ⟨a', ha', rfl⟩ := Filter.compile_present.mp hd
    obtain ⟨top, hfind, rfl⟩ := resolve_name ha
    obtain ⟨top', hfind', rfl⟩ := hresolve ha'
    cases hfind.symm.trans hfind'
    exact Condition.behind_present id top.name
  | _ => cases ht

theorem wellFormed_retarget {t : Filter} (ht : t.testPath? = some (.ofName name))
    (h : (t.retarget ⟨schema, name, none⟩).WellFormed) : t.WellFormed := by
  cases t with
  | compare b op v =>
    cases ht
    exact ⟨.ofName h.1.name, h.2⟩
  | present b =>
    cases ht
    exact .ofName (AttributePath.WellFormed.name h)
  | _ => cases ht

theorem wellFormed_groupedIfOr {f : Filter} (h : f.groupedIfOr.WellFormed) : f.WellFormed := by
  cases f <;> exact h

/-- A selection in the scope of an extension, and the same selection from the resource. -/
theorem compile_selection {text : String} {step : Step} {g : Filter}
    (hresolve : ∀ {a : Resolved},
      (AttributePath.mk schema name none).resolve r kind .resource = .ok a →
      ∃ top, next.find? kind name = some top ∧
        a = ⟨id.toList ++ [top.name], top.traits, top.subAttributes⟩)
    (hstep : (Segment.selection name text).Compiles r kind next step last)
    (hd : (Filter.select ⟨schema, name, none⟩ g).compile r kind .resource = .ok d) :
    ∃ key f c inner, step = .attribute key (some c) ∧ Filter.parse text = .ok f ∧
      f.compile r kind last = .ok c ∧ g.compile r kind last = .ok inner ∧
        d = .any (id.toList ++ [key]) inner := by
  obtain ⟨a, inner, ha, -, hinner, rfl⟩ := Filter.compile_select.mp hd
  obtain ⟨top, hfind, rfl⟩ := hresolve ha
  cases hstep with
  | @selection _ _ top' f c hfind' htype hread hc =>
    cases hfind.symm.trans hfind'
    exact ⟨top.name, f, c, inner, rfl, hread, hc, hinner, rfl⟩

/-- What segments and the filter that says the same are compiled to: behind the extension, if any,
the steps and the condition agree on every value. -/
theorem SaysSame.compiled (hr : OwnUrns r) {segments : List Segment} {f : Filter}
    (h : SaysSame r segments f) (hf : f.WellFormed) {steps : List Step}
    (hsteps : CompilesTo r kind .resource segments steps last)
    (hd : f.compile r kind .resource = .ok d) :
    ∃ (id : Option String) (rest : List Step) (c : Condition),
      steps = (id.map Step.extension).toList ++ rest ∧ (∀ urn, .extension urn ∉ rest) ∧
        c.Behind id d ∧ ∀ v, (Query.mk rest).holds v = c.holds v := by
  -- each text among the segments is read back as the filter that it was written from
  cases h with
  | whole =>
    obtain ⟨step, behind, rest, hstep, hrest, rfl⟩ := compilesTo_cons.mp hsteps
    obtain ⟨rfl, rfl⟩ := compilesTo_nil.mp hrest
    cases hstep with
    | test hread hc =>
      obtain ⟨-, -, rfl⟩ := (Filter.parse_toText hf).mp hread
      cases hc.symm.trans hd
      exact ⟨none, _, d, rfl, by simp, .here, Query.holds_test d⟩
  | selected hext =>
    obtain ⟨front, back, next, hfront, hback, rfl⟩ := compilesTo_append.mp hsteps
    obtain ⟨step, behind, rest, hstep, hrest, rfl⟩ := compilesTo_cons.mp hback
    obtain ⟨rfl, rfl⟩ := compilesTo_nil.mp hrest
    obtain ⟨id, rfl, hresolve⟩ := hext.compiled hr hfront
    obtain ⟨key, g, c, inner, rfl, hread, hc, hinner, rfl⟩ := compile_selection hresolve hstep hd
    obtain ⟨-, -, rfl⟩ := (Filter.parse_toText hf.2.2).mp hread
    cases hc.symm.trans hinner
    exact ⟨id, _, _, rfl, by simp, Condition.behind_any id key c, Query.holds_selection key c⟩
  | tested hext ht =>
    obtain ⟨front, back, next, hfront, hback, rfl⟩ := compilesTo_append.mp hsteps
    obtain ⟨step, behind, rest, hstep, hrest, rfl⟩ := compilesTo_cons.mp hback
    obtain ⟨rfl, rfl⟩ := compilesTo_nil.mp hrest
    obtain ⟨id, rfl, hresolve⟩ := hext.compiled hr hfront
    cases hstep with
    | test hread hc =>
      obtain ⟨-, -, rfl⟩ := (Filter.parse_toText (wellFormed_retarget ht hf)).mp hread
      exact ⟨id, _, _, rfl, by simp, compile_retarget ht hresolve hc hd, Query.holds_test _⟩
  | narrowed hext ht =>
    obtain ⟨front, back, next, hfront, hback, rfl⟩ := compilesTo_append.mp hsteps
    obtain ⟨step, behind, rest, hstep, hrest, rfl⟩ := compilesTo_cons.mp hback
    obtain ⟨step', behind', rest', hstep', hrest', rfl⟩ := compilesTo_cons.mp hrest
    obtain ⟨rfl, rfl⟩ := compilesTo_nil.mp hrest'
    obtain ⟨id, rfl, hresolve⟩ := hext.compiled hr hfront
    obtain ⟨key, g, c, inner, rfl, hread, hc, hinner, rfl⟩ := compile_selection hresolve hstep hd
    obtain ⟨-, -, hjoined⟩ := hf
    obtain ⟨-, -, hfirst, hsecond⟩ := hjoined
    obtain ⟨left, right, hleft, hright, rfl⟩ := Filter.compile_and.mp hinner
    obtain ⟨-, -, rfl⟩ := (Filter.parse_toText (wellFormed_groupedIfOr hfirst)).mp hread
    rw [Filter.compile_groupedIfOr] at hleft
    cases hc.symm.trans hleft
    cases hstep' with
    | test hread' hc' =>
      obtain ⟨-, -, rfl⟩ := (Filter.parse_toText hsecond).mp hread'
      cases hc'.symm.trans hright
      exact ⟨id, _, _, rfl, by simp, Condition.behind_any id key _, Query.holds_narrowed key c _⟩

/-- Where a filter text and the text in parentheses are both read and compiled, they hold of the
same resources, unless the first would hold of nothing. -/
theorem compile_parenthesized (hr : OwnUrns r) {text : String} {e e' : Expression} {q q' : Query}
    (hread : parse r text = .ok e) (hcompile : e.compile r kind = .ok q)
    (hread' : parse r ("(" ++ text ++ ")") = .ok e') (hcompile' : e'.compile r kind = .ok q')
    {resource : Json}
    (hlist : ∀ urn, .extension urn ∈ q.steps → ∀ items, resource.member? urn ≠ some (.arr items)) :
    q'.holds resource = q.holds resource ↔ ¬q.HoldsOfNothing resource := by
  obtain ⟨hends, last, hsteps⟩ := compile_eq_ok.mp hcompile
  obtain ⟨f, hf, hsame, hgroup⟩ := parse_parenthesized hr hread hends hread'
  obtain ⟨-, last', hsteps'⟩ := compile_eq_ok.mp hcompile'
  rw [hgroup] at hsteps'
  obtain ⟨step, next, rest, hstep, hrest, hq'⟩ := compilesTo_cons.mp hsteps'
  obtain ⟨rfl, -⟩ := compilesTo_nil.mp hrest
  have hwell : (Filter.group f).WellFormed := hf
  cases hstep with
  | @test _ g d hparse hd =>
    obtain ⟨-, -, rfl⟩ := (Filter.parse_toText hwell).mp hparse
    obtain ⟨id, rest, c, hq, hrest, hbehind, hholds⟩ := hsame.compiled hr hf hsteps hd
    have hcondition : q'.holds resource = d.holds resource := by
      rw [← Query.holds_test d resource, ← hq']
    rw [hcondition]
    exact Query.behind_iff hq hrest hbehind hholds hlist

/-! ### An employee number -/

/-- An inequality inside an extension. -/
def unequalNumber : String := Urn.enterpriseUser ++ ":employeeNumber ne \"x\""

/-- The inequality as steps into the extension. -/
def unequalNumberSteps : Query :=
  ⟨[.extension Urn.enterpriseUser, .test (.compare ["employeeNumber"] .ne (.text "x") false)]⟩

/-- The inequality as one condition. -/
def unequalNumberTest : Query :=
  ⟨[.test (.compare [Urn.enterpriseUser, "employeeNumber"] .ne (.text "x") false)]⟩

theorem unequalNumber_steps : ∃ e, parse .standard unequalNumber = .ok e ∧
    e.compile .standard .user = .ok unequalNumberSteps :=
  ⟨⟨[.name Urn.enterpriseUser, .test "employeeNumber ne \"x\""]⟩, by decide +kernel,
    by decide +kernel⟩

theorem unequalNumber_test : ∃ e, parse .standard ("(" ++ unequalNumber ++ ")") = .ok e ∧
    e.compile .standard .user = .ok unequalNumberTest :=
  ⟨⟨[.test ("(" ++ Urn.enterpriseUser ++ ":employeeNumber ne \"x\")")]⟩, by decide +kernel,
    by decide +kernel⟩

/-- Both forms hold of a user with another number. -/
theorem compile_parenthesized_employed :
    let employed : Json := .obj
      [(Urn.enterpriseUser, .obj [("employeeNumber", .str "701984")]), ("userName", .str "bj")]
    unequalNumberTest.holds employed = true := by
  intro employed
  have hurns : OwnUrns .standard := by
    simp only [OwnUrns]
    decide
  obtain ⟨e, hread, hcompile⟩ := unequalNumber_steps
  obtain ⟨e', hread', hcompile'⟩ := unequalNumber_test
  have hpresent : employed.member? Urn.enterpriseUser =
      some (.obj [("employeeNumber", .str "701984")]) := by rfl
  have hsame : unequalNumberTest.holds employed = unequalNumberSteps.holds employed := by
    refine (compile_parenthesized hurns hread hcompile hread' hcompile' ?_).mpr ?_
    · intro urn hurn items
      have hname : urn = Urn.enterpriseUser := by simpa [unequalNumberSteps] using hurn
      rw [hname, hpresent]
      rintro ⟨⟩
    · rintro ⟨urn, rest, hsteps, habsent, -⟩
      cases hsteps
      rw [hpresent] at habsent
      cases habsent
  rw [hsame]
  decide +kernel

/-- Of a user without the extension, the inequality holds in parentheses only. -/
theorem compile_parenthesized_unemployed :
    let unemployed : Json := .obj [("userName", .str "bj")]
    ∃ e q e' q', parse .standard unequalNumber = .ok e ∧ e.compile .standard .user = .ok q ∧
      parse .standard ("(" ++ unequalNumber ++ ")") = .ok e' ∧
        e'.compile .standard .user = .ok q' ∧
          q.holds unemployed = false ∧ q'.holds unemployed = true := by
  obtain ⟨e, hread, hcompile⟩ := unequalNumber_steps
  obtain ⟨e', hread', hcompile'⟩ := unequalNumber_test
  exact ⟨e, unequalNumberSteps, e', unequalNumberTest, hread, hcompile, hread', hcompile',
    by decide +kernel, by decide +kernel⟩

end Expression

end Roster
