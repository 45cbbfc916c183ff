import Roster.Proofs.Query.Compile

/-!
A filter and its bracket form. A dotted name is looked up in one go, and its bracket form in two:
the owner first, then the sub-attribute among the members of the owner. Both reach the same values,
so a test that a list passes when one of its values does has the same result on both. Inequality
and tests against null are not of that kind.
-/

namespace Roster

/-! ### Reaching values in two goes -/

/-- What names reach from values is what they reach from each value alone. -/
theorem Json.collect_flatMap (values : List Json) (keys : List String) :
    Json.collect values keys = values.flatMap fun v => Json.collect [v] keys := by
  induction keys generalizing values with
  | nil => simp [Json.collect]
  | cons key keys ih =>
    simp only [Json.collect, List.flatMap_singleton]
    rw [ih, List.flatMap_assoc]
    exact congrArg (List.flatMap · values) (funext fun v => (ih _).symm)

theorem Json.collect_append (values : List Json) (keys more : List String) :
    Json.collect values (keys ++ more) = Json.collect (Json.collect values keys) more := by
  induction keys generalizing values with
  | nil => rfl
  | cons key keys ih => exact ih _

/-- A test that is tried on the values that more names reach from each of some values. -/
theorem Json.any_collect_append (test : Json → Bool) (v : Json) (keys more : List String) :
    (Json.collect [v] (keys ++ more)).any test =
      (Json.collect [v] keys).any fun w => (Json.collect [w] more).any test := by
  rw [Json.collect_append, Json.collect_flatMap, List.any_flatMap]

/-! ### Comparisons that look for one value -/

/-- Any other comparison holds of a list when it holds of one of its values. -/
theorem compareAny_exists {op : CompareOp} {literal : TypedValue} (hop : op ≠ .ne)
    (hliteral : literal ≠ .null) (caseExact : Bool) (values : List Json) :
    compareAny op literal caseExact values = values.any (literal.test op caseExact) := by
  cases op <;> cases literal <;> simp_all [compareAny]

theorem Literal.typed_ne_null {op : CompareOp} {type : AttributeType} {v : Literal}
    {literal : TypedValue} (hv : v ≠ .null) (h : v.typed op type = .ok literal) :
    literal ≠ .null := by
  rintro rfl
  cases v with
  | null => exact hv rfl
  | text s =>
    cases type <;> simp only [Literal.typed] at h <;> try cases h
    split at h <;> cases h
  | bool b => cases type <;> simp only [Literal.typed] at h <;> cases h
  | number d =>
    cases type <;> simp only [Literal.typed] at h <;> try cases h
    split at h
    · split at h <;> cases h
    · cases h

variable {r : Registry} {kind : Kind} {scope : Scope} {a : AttributePath} {sub : String}

/-! ### A dotted name -/

/-- The names in front of an attribute that a schema qualifies, and the scope it is looked up in. -/
def Scope.qualified? (r : Registry) (kind : Kind) (scope : Scope) (schema : Option String) :
    Option (List String × Scope) :=
  match schema, scope with
  | none, scope => some ([], scope)
  | some urn, .resource =>
    if isCoreSchema urn then some ([], .resource)
    else (r.extension? kind urn).map fun s => ([s.id], .members s.attributes)
  | some _, .members _ => none

/-- What a path reaches in the scope it is looked up in, behind the names in front. -/
def AttributePath.reach (kind : Kind) (a : AttributePath) (front : List String) (inside : Scope) :
    Except ExpressionError Resolved :=
  match inside.find? kind a.name with
  | none => .error (.unknownAttribute a.toText)
  | some top =>
    match a.sub with
    | none => .ok ⟨front ++ [top.name], top.traits, top.subAttributes⟩
    | some sub =>
      match top.subAttribute? sub with
      | some s => .ok ⟨front ++ [top.name, s.name], s.traits, s.subAttributes⟩
      | none => .error (.unknownAttribute a.toText)

/-- A path is looked up in the scope that its schema gives. -/
theorem AttributePath.resolve_eq (a : AttributePath) : a.resolve r kind scope =
    (scope.qualified? r kind a.schema).elim (.error (.unknownAttribute a.toText))
      fun place => a.reach kind place.1 place.2 := by
  obtain ⟨schema, name, sub⟩ := a
  cases schema with
  | none => rfl
  | some urn =>
    cases scope with
    | members attributes => rfl
    | resource =>
      simp only [resolve, Scope.qualified?]
      cases isCoreSchema urn with
      | true => rfl
      | false => cases r.extension? kind urn <;> rfl

theorem AttributePath.resolve_eq_ok {found : Resolved} : a.resolve r kind scope = .ok found ↔
    ∃ front inside, scope.qualified? r kind a.schema = some (front, inside) ∧
      a.reach kind front inside = .ok found := by
  rw [resolve_eq]
  cases scope.qualified? r kind a.schema with
  | none => simp
  | some place => simp [Prod.ext_iff]

variable {front : List String} {inside : Scope} {found : Resolved}

theorem AttributePath.reach_name (hsub : a.sub = none) : a.reach kind front inside = .ok found ↔
    ∃ top, inside.find? kind a.name = some top ∧
      found = ⟨front ++ [top.name], top.traits, top.subAttributes⟩ := by
  cases htop : inside.find? kind a.name <;> simp [reach, htop, hsub, eq_comm]

theorem AttributePath.reach_dotted (hsub : a.sub = some sub) :
    a.reach kind front inside = .ok found ↔ ∃ top s, inside.find? kind a.name = some top ∧
      top.subAttribute? sub = some s ∧
        found = ⟨front ++ [top.name, s.name], s.traits, s.subAttributes⟩ := by
  cases htop : inside.find? kind a.name with
  | none => simp [reach, htop]
  | some top => cases hs : top.subAttribute? sub <;> simp [reach, htop, hsub, hs, eq_comm]

/-- A sub-attribute found among the members of its owner is found by the dotted name, behind the
names that lead to the owner. -/
theorem AttributePath.resolve_dotted {owner : Resolved} (hsub : a.sub = some sub)
    (howner : AttributePath.resolve r kind scope { a with sub := none } = .ok owner)
    (hfound : (AttributePath.ofName sub).resolve r kind (.members owner.subAttributes) =
      .ok found) :
    a.resolve r kind scope = .ok { found with keys := owner.keys ++ found.keys } := by
  obtain ⟨front, inside, hscope, howner⟩ := resolve_eq_ok.mp howner
  obtain ⟨top, htop, rfl⟩ := (reach_name rfl).mp howner
  obtain ⟨none, members, hplace, hfound⟩ := resolve_eq_ok.mp hfound
  cases hplace
  obtain ⟨s, hs, rfl⟩ := (reach_name rfl).mp hfound
  have hreach : a.reach kind front inside =
      .ok ⟨front ++ [top.name] ++ [s.name], s.traits, s.subAttributes⟩ :=
    (reach_dotted hsub).mpr ⟨top, s, htop, hs, by simp⟩
  exact resolve_eq_ok.mpr ⟨front, inside, hscope, hreach⟩

/-- Names in front do not matter for which attribute a comparison looks at. -/
theorem Resolved.compared_behind (found : Resolved) (front : List String) :
    Resolved.compared { found with keys := front ++ found.keys } =
      { found.compared with keys := front ++ found.compared.keys } := by
  unfold Resolved.compared
  cases h : findAttribute? found.subAttributes "value" with
  | none => simp only [ite_self]
  | some value => split <;> simp

namespace Filter

/-- The comparisons of a filter. -/
def comparisons : Filter → List (AttributePath × CompareOp × Literal)
  | .compare a op v => [(a, op, v)]
  | .present _ => []
  | .select _ f => f.comparisons
  | .and f g => f.comparisons ++ g.comparisons
  | .or f g => f.comparisons ++ g.comparisons
  | .not f => f.comparisons
  | .group f => f.comparisons

/-- Comparisons of dotted names are no inequalities, and not with null. -/
def LooksForOne (f : Filter) : Prop :=
  ∀ a op v, (a, op, v) ∈ f.comparisons → a.sub.isSome = true → op ≠ .ne ∧ v ≠ .null

theorem LooksForOne.left {f g h : Filter} (hf : h.LooksForOne)
    (hcomparisons : h.comparisons = f.comparisons ++ g.comparisons) : f.LooksForOne :=
  fun a op v hmem => hf a op v (by simp [hcomparisons, hmem])

theorem LooksForOne.right {f g h : Filter} (hf : h.LooksForOne)
    (hcomparisons : h.comparisons = f.comparisons ++ g.comparisons) : g.LooksForOne :=
  fun a op v hmem => hf a op v (by simp [hcomparisons, hmem])

variable {f : Filter} {c' : Condition}

theorem compile_compare_dotted {op : CompareOp} {v : Literal} (hsub : a.sub = some sub)
    (hop : op ≠ .ne) (hv : v ≠ .null)
    (h : (bracketed (.compare a op v)).compile r kind scope = .ok c') :
    ∃ c, (Filter.compare a op v).compile r kind scope = .ok c ∧
      ∀ w, c.holds w = c'.holds w := by
  simp only [bracketed, hsub] at h
  obtain ⟨owner, d, howner, -, hinner, rfl⟩ := compile_select.mp h
  obtain ⟨found, literal, hfound, hsupports, hliteral, rfl⟩ := compileComparison_eq_ok.mp hinner
  have hresolve := AttributePath.resolve_dotted hsub howner hfound
  refine ⟨_, compileComparison_eq_ok.mpr ⟨_, literal, hresolve, ?_, ?_, rfl⟩, fun w => ?_⟩
  · rwa [Resolved.compared_behind]
  · rwa [Resolved.compared_behind]
  · rw [Resolved.compared_behind]
    simp only [Condition.holds,
      compareAny_exists hop (Literal.typed_ne_null hv hliteral), Json.any_collect_append]

theorem compile_present_dotted (hsub : a.sub = some sub)
    (h : (bracketed (.present a)).compile r kind scope = .ok c') :
    ∃ c, (Filter.present a).compile r kind scope = .ok c ∧ ∀ w, c.holds w = c'.holds w := by
  simp only [bracketed, hsub] at h
  obtain ⟨owner, d, howner, -, hinner, rfl⟩ := compile_select.mp h
  obtain ⟨found, hfound, rfl⟩ := compile_present.mp hinner
  have hresolve := AttributePath.resolve_dotted hsub howner hfound
  refine ⟨_, compile_present.mpr ⟨_, hresolve, rfl⟩, fun w => ?_⟩
  simp only [Condition.holds, Json.any_collect_append]

/-- Where the bracket form of a filter is compiled, so is the filter, to a condition that holds of
the same values, when its comparisons of dotted names are no inequalities and not with null. -/
theorem compile_bracketed (hf : f.LooksForOne)
    (h : f.bracketed.compile r kind scope = .ok c') :
    ∃ c, f.compile r kind scope = .ok c ∧ ∀ v, c.holds v = c'.holds v := by
  induction f generalizing scope c' with
  | compare a op v =>
    cases hsub : a.sub with
    | none =>
      simp only [bracketed, hsub] at h
      exact ⟨c', h, fun _ => rfl⟩
    | some sub =>
      obtain ⟨hop, hv⟩ := hf a op v (by simp [comparisons]) (by simp [hsub])
      exact compile_compare_dotted hsub hop hv h
  | present a =>
    cases hsub : a.sub with
    | none =>
      simp only [bracketed, hsub] at h
      exact ⟨c', h, fun _ => rfl⟩
    | some sub => exact compile_present_dotted hsub h
  | select a f ih =>
    obtain ⟨owner, d', howner, htype, hinner, rfl⟩ := compile_select.mp h
    obtain ⟨d, hd, hsame⟩ := ih hf hinner
    refine ⟨_, compile_select.mpr ⟨owner, d, howner, htype, hd, rfl⟩, fun v => ?_⟩
    simp only [Condition.holds, funext hsame]
  | and f g ihf ihg =>
    obtain ⟨left', right', hleft, hright, rfl⟩ := compile_and.mp h
    obtain ⟨left, hf', hsamef⟩ := ihf (hf.left rfl) hleft
    obtain ⟨right, hg', hsameg⟩ := ihg (hf.right rfl) hright
    refine ⟨_, compile_and.mpr ⟨left, right, hf', hg', rfl⟩, fun v => ?_⟩
    simp only [Condition.holds, hsamef, hsameg]
  | or f g ihf ihg =>
    obtain ⟨left', right', hleft, hright, rfl⟩ := compile_or.mp h
    obtain ⟨left, hf', hsamef⟩ := ihf (hf.left rfl) hleft
    obtain ⟨right, hg', hsameg⟩ := ihg (hf.right rfl) hright
    refine ⟨_, compile_or.mpr ⟨left, right, hf', hg', rfl⟩, fun v => ?_⟩
    simp only [Condition.holds, hsamef, hsameg]
  | not f ih =>
    obtain ⟨inner', hinner, rfl⟩ := compile_not.mp h
    obtain ⟨inner, hf', hsame⟩ := ih hf hinner
    refine ⟨_, compile_not.mpr ⟨inner, hf', rfl⟩, fun v => ?_⟩
    simp only [Condition.holds, hsame]
  | group f ih => exact ih hf h

/-- The addresses of a user, and a name that is not another one. -/
theorem compile_bracketed_negated : ∃ f c' c,
    parse "not (emails.value co \"a\" and name.familyName sw \"b\") or emails[type pr]" = .ok f ∧
      f.bracketed.compile .standard .user .resource = .ok c' ∧
      f.compile .standard .user .resource = .ok c ∧ ∀ v, c.holds v = c'.holds v := by
  let address : Filter := .compare ⟨none, "emails", some "value"⟩ .co (.text "a")
  let family : Filter := .compare ⟨none, "name", some "familyName"⟩ .sw (.text "b")
  let f : Filter := .or (.not (.and address family)) (.select (.ofName "emails")
    (.present (.ofName "type")))
  let d : Condition := .or (.not (.and
    (.any ["emails"] (.compare ["value"] .co (.text "a") false))
    (.any ["name"] (.compare ["familyName"] .sw (.text "b") false))))
    (.any ["emails"] (.present ["type"]))
  have hf : f.LooksForOne := by
    intro a op v hmem _
    rcases List.mem_pair.mp hmem with h | h <;> cases h <;> decide
  have hd : f.bracketed.compile .standard .user .resource = .ok d := by decide +kernel
  obtain ⟨c, hc, hsame⟩ := compile_bracketed hf hd
  exact ⟨f, d, c, by decide +kernel, hd, hc, hsame⟩

/-- Of a list, an inequality of a dotted name asks every value, and its bracket form one. -/
example :
    let f : Filter := .compare ⟨none, "emails", some "value"⟩ .ne (.text "a")
    let user : Json := .obj [("emails", .arr [.obj [("value", .str "a")],
      .obj [("value", .str "b")]])]
    (f.compile .standard .user .resource).toOption.map (·.holds user) = some false ∧
      (f.bracketed.compile .standard .user .resource).toOption.map (·.holds user) = some true := by
  decide +kernel

end Filter

end Roster
