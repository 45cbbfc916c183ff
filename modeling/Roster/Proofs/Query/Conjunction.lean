import Roster.Proofs.Patch.Appended
import Roster.Proofs.Query.Narrowed
import Roster.Proofs.Query.Ranked

/-! Filters that ask for equality only. Such a filter has a list of tests, each of a name and a
literal, and it holds of a value exactly if the value meets every one of them. -/

namespace Roster

open Members Json

/-- A filter is a conjunction of equalities, in whatever groups; these are its tests. -/
inductive Conjunction : Filter → List (String × Literal) → Prop where
  | test (name : String) (literal : Literal) :
      Conjunction (.compare (.ofName name) .eq literal) [(name, literal)]
  | and {f g : Filter} {tests more : List (String × Literal)} (left : Conjunction f tests)
      (right : Conjunction g more) : Conjunction (.and f g) (tests ++ more)
  | group {f : Filter} {tests : List (String × Literal)} (inner : Conjunction f tests) :
      Conjunction (.group f) tests

/-- A value meets a test: of what it holds for the name, one value is equal to the literal, which is
read at the type of the attribute. -/
def Meets (definitions : List Attribute) (v : Json) (test : String × Literal) : Prop :=
  ∃ d literal x, findAttribute? definitions test.1 = some d ∧
    test.2.typed .eq d.type = .ok literal ∧ v.member? d.name = some x ∧
    ∃ y ∈ x.flatten, literal.test .eq d.traits.caseExact y = true

section

variable {r : Registry} {kind : Kind} {definitions : List Attribute} {f : Filter} {c : Condition}
  {tests seeds : List (String × Literal)} {test : String × Literal} {name : String} {l : Literal}
  {type : AttributeType} {literal : TypedValue} {caseExact : Bool} {u v w x y : Json}

/-! ### Conditions of conjunctions -/

/-- The tests of a conjunction are what an addition takes from it, if none asks for null. -/
theorem Conjunction.seeds_eq (h : Conjunction f tests) (hs : f.equalitySeeds? = some seeds) :
    seeds = tests ∧ ∀ p ∈ tests, p.2 ≠ .null := by
  induction h generalizing seeds with
  | test name literal =>
    obtain ⟨hnull, rfl⟩ : literal ≠ .null ∧ [(name, literal)] = seeds := by
      simpa [Filter.equalitySeeds?, AttributePath.ofName] using hs
    exact ⟨rfl, by simpa using hnull⟩
  | and _ _ ihf ihg =>
    obtain ⟨first, hfirst, hs⟩ := Option.bind_eq_some_iff.mp hs
    obtain ⟨last, hlast, hs⟩ := Option.bind_eq_some_iff.mp hs
    cases hs
    obtain ⟨rfl, hleft⟩ := ihf hfirst
    obtain ⟨rfl, hright⟩ := ihg hlast
    refine ⟨rfl, fun p hp => ?_⟩
    rcases List.mem_append.mp hp with hp | hp
    · exact hleft p hp
    · exact hright p hp
  | group _ ih => exact ih hs

/-- The comparison of a plain name looks at what is held for the attribute of the name. -/
theorem compile_test_iff (hsimple : ∀ d, findAttribute? definitions name = some d →
      d.type ≠ .complex) :
    (Filter.compare (.ofName name) .eq l).compile r kind (.members definitions) = .ok c ↔
      ∃ d literal, findAttribute? definitions name = some d ∧ l.typed .eq d.type = .ok literal ∧
        d.type.supports .eq = true ∧ c = .compare [d.name] .eq literal d.traits.caseExact := by
  have hresolve {found : Resolved} :
      (AttributePath.ofName name).resolve r kind (.members definitions) = .ok found ↔
        ∃ d, findAttribute? definitions name = some d ∧
          found = ⟨[d.name], d.traits, d.subAttributes⟩ := by
    rw [AttributePath.resolve_eq_ok]
    simp [Scope.qualified?, AttributePath.ofName, AttributePath.reach_name, Scope.find?,
      Scope.attributes]
  rw [Filter.compile, compileComparison_eq_ok]
  simp only [hresolve]
  constructor
  · rintro ⟨_, literal, ⟨d, hd, rfl⟩, hsupports, htyped, rfl⟩
    have hcompared : (⟨[d.name], d.traits, d.subAttributes⟩ : Resolved).compared =
        ⟨[d.name], d.traits, d.subAttributes⟩ := by
      simp [Resolved.compared, Attribute.traits, hsimple d hd]
    rw [hcompared] at hsupports htyped ⊢
    exact ⟨d, literal, hd, htyped, hsupports, rfl⟩
  · rintro ⟨d, literal, hd, htyped, hsupports, rfl⟩
    have hcompared : (⟨[d.name], d.traits, d.subAttributes⟩ : Resolved).compared =
        ⟨[d.name], d.traits, d.subAttributes⟩ := by
      simp [Resolved.compared, Attribute.traits, hsimple d hd]
    refine ⟨_, literal, ⟨d, hd, rfl⟩, ?_⟩
    rw [hcompared]
    exact ⟨hsupports, htyped, rfl⟩

/-- A compiled conjunction has a typed literal for each test, and holds of what meets all. -/
theorem Conjunction.holds_iff (h : Conjunction f tests)
    (hc : f.compile r kind (.members definitions) = .ok c) (hvalues : ∀ p ∈ tests, p.2 ≠ .null)
    (hsimple : ∀ p ∈ tests, ∀ d, findAttribute? definitions p.1 = some d → d.type ≠ .complex) :
    (∀ p ∈ tests, ∃ d literal, findAttribute? definitions p.1 = some d ∧
      p.2.typed .eq d.type = .ok literal) ∧
    ∀ v, c.holds v = true ↔ ∀ p ∈ tests, Meets definitions v p := by
  induction h generalizing c with
  | test name l =>
    have hone := hsimple (name, l) List.mem_cons_self
    obtain ⟨d, literal, hd, htyped, -, rfl⟩ := (compile_test_iff hone).mp hc
    have hnull := Literal.typed_ne_null (hvalues (name, l) List.mem_cons_self) htyped
    refine ⟨by simpa using ⟨d, hd, literal, htyped⟩, fun v => ?_⟩
    rw [Condition.holds, compareAny_exists (by simp) hnull]
    simp only [Json.collect, List.flatMap_singleton, List.forall_mem_singleton, Meets, hd,
      Option.some.injEq, List.any_eq_true]
    constructor
    · rintro ⟨y, hy, htest⟩
      cases hx : v.member? d.name with
      | none => simp [hx] at hy
      | some x => exact ⟨d, literal, x, rfl, htyped, hx, y, by simpa [hx] using hy, htest⟩
    · rintro ⟨_, literal', x, rfl, htyped', hx, y, hy, htest⟩
      cases htyped.symm.trans htyped'
      exact ⟨y, by simpa [hx] using hy, htest⟩
  | and _ _ ihf ihg =>
    obtain ⟨left, right, hleft, hright, rfl⟩ := Filter.compile_and.mp hc
    simp only [List.forall_mem_append] at hvalues hsimple ⊢
    obtain ⟨hfirst, hf⟩ := ihf hleft hvalues.1 hsimple.1
    obtain ⟨hlast, hg⟩ := ihg hright hvalues.2 hsimple.2
    refine ⟨⟨hfirst, hlast⟩, fun v => ?_⟩
    rw [Condition.holds, Bool.and_eq_true, hf, hg]
  | group _ ih => exact ih hc hvalues hsimple

/-! ### Literals -/

theorem TypedValue.test_eq : literal.test .eq caseExact v =
    (literal.orderFrom? caseExact v == some .eq) := by
  simp only [TypedValue.test, CompareOp.isSubstring, Bool.false_eq_true, if_false]
  cases literal.orderFrom? caseExact v <;> simp [CompareOp.admits]

/-- The JSON value of a literal, as it is admitted at a type without fractions, is equal to the
literal that is read at this type. -/
theorem Literal.test_admitted (hd : type ≠ .decimal) (hnull : l ≠ .null)
    (ht : l.typed .eq type = .ok literal) (ha : type.admit? l.toJson = some w) :
    literal.test .eq caseExact w = true := by
  rw [TypedValue.test_eq, beq_iff_eq]
  cases l with
  | null => exact absurd rfl hnull
  | text s =>
    cases type with
    | string | reference | binary =>
      cases ht
      cases ha
      simp [TypedValue.orderFrom?, Json.string?, orderText]
    | dateTime =>
      simp only [Literal.typed] at ht
      split at ht
      case h_2 => cases ht
      case h_1 t hread =>
        cases ht
        have hw : .str s = w := by
          simpa [AttributeType.admit?, Literal.toJson, Json.string?, hread] using ha
        have hself : t.order t = .eq := by
          rw [Instant.order_eq]
          exact cmp_self_eq_eq _
        simp [← hw, TypedValue.orderFrom?, Json.instant?, Json.string?, hread, hself]
    | _ => cases ht
  | bool b =>
    cases type with
    | boolean =>
      cases ht
      cases ha
      simp [TypedValue.orderFrom?, Json.bool?]
    | _ => cases ht
  | number q =>
    cases type with
    | integer =>
      obtain ⟨hwhole, n, hn, rfl⟩ : q.isWhole = true ∧ ∃ n, signedWord? q.truncate = some n ∧
          .integer n = literal := by
        simp only [Literal.typed] at ht
        split_ifs at ht with hwhole
        split at ht
        case h_1 n hn =>
          cases ht
          exact ⟨hwhole, n, hn, rfl⟩
        case h_2 => cases ht
      have hw : .num (.whole n) = w := by
        simpa [AttributeType.admit?, Literal.toJson, hwhole, hn, Json.ofInt] using ha
      -- a number that is read as a signed word is one
      have hword : signedWord? n = some n := by
        have hsame : q.truncate = n := by
          simp only [signedWord?] at hn
          split_ifs at hn
          exact Option.some.inj hn
        rwa [hsame] at hn
      simp [← hw, TypedValue.orderFrom?, Json.int64?, Json.number?, Number.int64?, hword]
    | decimal => exact absurd rfl hd
    | _ => cases ht

theorem Literal.typed_ne_decimal (hd : type ≠ .decimal) (ht : l.typed .eq type = .ok literal)
    (q : Decimal) : literal ≠ .decimal q := by
  rintro rfl
  unfold Literal.typed at ht
  repeat' split at ht
  all_goals cases ht
  exact absurd rfl hd

/-- What is equal as a JSON value is equal to the same literals, fractions aside. -/
theorem TypedValue.test_same (hl : ∀ q, literal ≠ .decimal q) (h : u.same v = true) :
    literal.test .eq caseExact u = literal.test .eq caseExact v := by
  have hbool : u.bool? = v.bool? := by cases u <;> cases v <;> simp_all [Json.same, Json.bool?]
  have hstring : u.string? = v.string? := by
    cases u <;> cases v <;> simp_all [Json.same, Json.string?]
  have hnumber : u.int64? = v.int64? := by
    cases u <;> cases v <;> simp only [Json.same, Bool.false_eq_true] at h <;> try rfl
    case num m n =>
      cases m <;> cases n <;> simp_all [Number.same, Json.int64?, Json.number?, Number.int64?]
  have horder : literal.orderFrom? caseExact u = literal.orderFrom? caseExact v := by
    cases literal with
    | decimal q => exact absurd rfl (hl q)
    | _ => simp only [TypedValue.orderFrom?, Json.instant?, hbool, hstring, hnumber]
  rw [TypedValue.test_eq, TypedValue.test_eq, horder]

/-! ### Values that meet the same tests -/

theorem Json.sameItems_mem : {xs ys : List Json} → sameItems xs ys = true → ∀ y ∈ ys,
    ∃ x ∈ xs, x.same y = true
  | [], [], _, _, hy => by cases hy
  | x :: xs, z :: zs, h, y, hy => by
    rw [sameItems, Bool.and_eq_true] at h
    rcases List.mem_cons.mp hy with rfl | hy
    · exact ⟨x, List.mem_cons_self, h.1⟩
    · obtain ⟨x', hx, hsame⟩ := sameItems_mem h.2 y hy
      exact ⟨x', List.mem_cons_of_mem _ hx, hsame⟩

theorem Json.mem_flatten_of_same (h : u.same v = true) (hy : y ∈ v.flatten) :
    ∃ x ∈ u.flatten, x.same y = true := by
  cases u with
  | arr xs =>
    cases v with
    | arr ys => exact sameItems_mem h y hy
    | _ => cases h
  | _ => cases v <;> simp_all [Json.same, Json.flatten]

/-- Equal objects hold equal values under each name. -/
theorem Json.sameMembers_get? : {xs ys : Members Json} → sameMembers xs ys = true →
    {key : String} → Members.get? ys key = some y →
      ∃ x, Members.get? xs key = some x ∧ x.same y = true
  | [], [], _, _, hy => by cases hy
  | (j, x) :: xs, (k, z) :: zs, h, key, hy => by
    simp only [sameMembers, Bool.and_eq_true, beq_iff_eq] at h
    obtain ⟨⟨rfl, hvalue⟩, hrest⟩ := h
    simp only [Members.get?] at hy ⊢
    split_ifs at hy ⊢
    · cases hy
      exact ⟨x, rfl, hvalue⟩
    · exact sameMembers_get? hrest hy

theorem Json.member?_of_same (h : u.same v = true) (hy : v.member? name = some y) :
    ∃ x, u.member? name = some x ∧ x.same y = true := by
  cases v with
  | obj ys =>
    cases u with
    | obj xs =>
      obtain ⟨hkeys, -⟩ := sameMembers_look xs ys h
      obtain ⟨key, hkey, hget⟩ := Members.find?_eq_some hy
      obtain ⟨x, hx, hsame⟩ := sameMembers_get? h hget
      refine ⟨x, ?_, hsame⟩
      have hheld : Members.key? xs name = some key := by rw [Members.key?_of_keys hkeys, hkey]
      simp [Json.member?, Json.members?, Members.find?, hheld, hx]
    | _ => cases h
  | _ => cases hy

theorem Meets.of_same (hm : Meets definitions v test) (h : u.same v = true)
    (hd : ∀ d, findAttribute? definitions test.1 = some d → d.type ≠ .decimal) :
    Meets definitions u test := by
  obtain ⟨d, literal, x, hfound, htyped, hx, y, hy, htest⟩ := hm
  obtain ⟨w, hw, hsame⟩ := Json.member?_of_same h hx
  obtain ⟨z, hz, hzy⟩ := Json.mem_flatten_of_same hsame hy
  refine ⟨d, literal, w, hfound, htyped, hw, z, hz, ?_⟩
  rwa [TypedValue.test_same (Literal.typed_ne_decimal (hd d hfound) htyped) hzy]

/-- What a demoted value holds by another name than `primary`, it has held before. -/
theorem Meets.of_demoted (hm : Meets definitions v.demoted test)
    (hd : ∀ d, findAttribute? definitions test.1 = some d → sameName d.name "primary" = false) :
    Meets definitions v test := by
  obtain ⟨d, literal, x, hfound, htyped, hx, hy⟩ := hm
  refine ⟨d, literal, x, hfound, htyped, ?_, hy⟩
  cases v with
  | obj ms =>
    simp only [Json.demoted] at hx
    split_ifs at hx
    · change find? (Members.set ms "primary" (.bool false)) d.name = some x at hx
      rwa [Members.find?_set_of_not_same _ (hd d hfound)] at hx
    · exact hx
  | _ => exact hx

/-- A primary value that is demoted is found to be so under each spelling of the name. -/
theorem Json.member?_demoted (hv : v.isPrimary = true) (hone : SpelledOnce v.root "primary")
    (hname : sameName name "primary" = true) : v.demoted.member? name = some (.bool false) := by
  cases v with
  | obj ms =>
    have hset : Members.get? (Members.set ms "primary" (.bool false)) "primary" =
        some (.bool false) := get?_set_self _ _ _
    have hspelled : SpelledOnce (Members.set ms "primary" (.bool false)) name :=
      (spelledOnce_congr hname).mpr (SpelledOnce.set hone fun _ => rfl)
    have hkey : key? (Members.set ms "primary" (.bool false)) name = some "primary" :=
      hspelled.key? (isSome_get?.mp (by rw [hset]; rfl)) hname
    rw [Json.demoted, if_pos hv]
    simp [Json.member?, Json.members?, find?, hkey, hset]
  | _ => cases hv

/-- It does not meet a test that asks for a primary one. -/
theorem not_meets_demoted {d : Attribute} (hv : v.isPrimary = true)
    (hone : SpelledOnce v.root "primary") (hfound : findAttribute? definitions test.1 = some d)
    (hname : sameName d.name "primary" = true)
    (htyped : test.2.typed .eq d.type = .ok (.bool true)) : ¬ Meets definitions v.demoted test := by
  rintro ⟨d', literal, x, hfound', htyped', hx, y, hy, htest⟩
  cases hfound.symm.trans hfound'
  cases htyped.symm.trans htyped'
  rw [Json.member?_demoted hv hone hname] at hx
  cases hx
  obtain rfl : y = .bool false := by simpa [Json.flatten] using hy
  simp [TypedValue.test_eq, TypedValue.orderFrom?, Json.bool?] at htest

end

end Roster
