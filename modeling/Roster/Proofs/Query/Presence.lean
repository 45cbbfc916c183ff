import Roster.Proofs.Patch.Checked
import Roster.Proofs.Query.Bracketed
import Roster.Proofs.Query.Complement
import Roster.Proofs.Query.Enclosed

/-!
Presence and equality with null. Both ask whether something under a name is assigned, but of a list
of complex values a comparison looks at their `value`. The two are complements of each other, except
where such a list holds values and none of them has a `value`.
-/

namespace Roster

/-! ### Values under a name -/

/-- What has an assigned member is assigned itself. -/
theorem Json.isPresent_of_member {v : Json} {key : String}
    (h : (Json.collect [v] [key]).any Json.isPresent = true) : v.isPresent = true := by
  cases hmember : v.member? key with
  | none => simp [Json.collect, hmember] at h
  | some w =>
    cases v with
    | obj members =>
      have hne : members ≠ [] := by
        rintro rfl
        cases hmember
      simpa [Json.isPresent] using hne
    | _ => cases hmember

theorem Json.isPresent_of_collect {v : Json} (keys : List String) {key : String}
    (h : (Json.collect [v] (keys ++ [key])).any Json.isPresent = true) :
    (Json.collect [v] keys).any Json.isPresent = true := by
  rw [Json.any_collect_append, List.any_eq_true] at h
  obtain ⟨w, hw, hmember⟩ := h
  exact List.any_eq_true.mpr ⟨w, hw, Json.isPresent_of_member hmember⟩

/-- A list of complex values under an attribute: some are assigned, and none has a `value`. -/
structure Attribute.LacksValues (a : Attribute) (resource : Json) : Prop where
  complex : a.type = .complex
  listed : a.multiValued = true
  assigned : (Json.collect [resource] [a.name]).any Json.isPresent = true
  lacking : (Json.collect [resource] [a.name, "value"]).any Json.isPresent = false

/-- No other spelling of `value` names a sub-attribute of a kind. -/
theorem Kind.value_name (kind : Kind) : ∀ a ∈ kind.attributes, ∀ s ∈ a.subAttributes,
    sameName s.name "value" = true → s.name = "value" := by
  cases kind <;> decide

/-- What a comparison of an attribute with null looks at. -/
theorem Attribute.compared_cases {kind : Kind} {a : Attribute} (ha : a ∈ kind.attributes)
    (h : (Resolved.compared ⟨[a.name], a.traits, a.subAttributes⟩).traits.type.supports .eq =
      true) :
    (a.type ≠ .complex ∧
        (Resolved.compared ⟨[a.name], a.traits, a.subAttributes⟩).keys = [a.name]) ∨
      (a.type = .complex ∧ a.multiValued = true ∧
        (Resolved.compared ⟨[a.name], a.traits, a.subAttributes⟩).keys = [a.name, "value"]) := by
  by_cases htype : a.type = .complex
  case neg => exact .inl ⟨htype, by simp [Resolved.compared, Attribute.traits, htype]⟩
  case pos =>
    cases hmulti : a.multiValued with
    | false =>
      simp [Resolved.compared, Attribute.traits, htype, hmulti, AttributeType.supports] at h
    | true =>
      cases hvalue : findAttribute? a.subAttributes "value" with
      | none =>
        simp [Resolved.compared, Attribute.traits, htype, hmulti, hvalue,
          AttributeType.supports] at h
      | some value =>
        have hname : value.name = "value" :=
          kind.value_name a ha value (findAttribute?_mem hvalue) (findAttribute?_sameName hvalue)
        exact .inr ⟨htype, rfl, by
          simp [Resolved.compared, Attribute.traits, htype, hmulti, hvalue, hname]⟩

/-- Equality with null and presence are complements, unless values lack what is compared. -/
theorem Attribute.null_or_present {kind : Kind} {a : Attribute} (ha : a ∈ kind.attributes)
    (h : (Resolved.compared ⟨[a.name], a.traits, a.subAttributes⟩).traits.type.supports .eq = true)
    (caseExact : Bool) (resource : Json) :
    let equal := Condition.compare
      (Resolved.compared ⟨[a.name], a.traits, a.subAttributes⟩).keys .eq .null caseExact
    let present := Condition.present [a.name]
    (¬a.LacksValues resource → (equal.holds resource = true ↔ ¬present.holds resource = true)) ∧
      (a.LacksValues resource → equal.holds resource = true ∧ present.holds resource = true) := by
  simp only [Condition.holds, compareAny]
  rcases Attribute.compared_cases ha h with ⟨htype, hkeys⟩ | ⟨htype, hmulti, hkeys⟩
  · rw [hkeys]
    exact ⟨fun _ => by simp, fun hlacks => absurd hlacks.complex htype⟩
  -- presence looks at the list, the comparison a member further
  · rw [hkeys]
    refine ⟨fun hlacks => ?_, fun hlacks => by simp [hlacks.assigned, hlacks.lacking]⟩
    rw [Bool.not_eq_true', ← Bool.not_eq_true]
    refine not_congr ⟨Json.isPresent_of_collect [a.name], fun hassigned => ?_⟩
    by_contra hlacking
    exact hlacks ⟨htype, hmulti, hassigned, Bool.eq_false_iff.mpr hlacking⟩

/-- No attribute of a kind is called like the keyword of a negation. -/
theorem Kind.attribute?_not (kind : Kind) {name : String} {a : Attribute}
    (h : kind.attribute? name = some a) : sameName name "not" = false := by
  have hnone : ∀ a ∈ kind.attributes, sameName a.name "not" = false := by
    cases kind <;> decide
  rw [Bool.eq_false_iff]
  intro hnot
  have hsame := sameName_trans (findAttribute?_sameName h) hnot
  rw [hnone a (findAttribute?_mem h)] at hsame
  cases hsame

namespace Expression

open Filter (comparisonText scanLiteral)

variable {r : Registry} {kind : Kind} {name : String} {e : Expression} {q : Query}

/-- One filter is compiled at the top of a resource, if its text is read back. -/
theorem compile_single {f : Filter} (hf : f.WellFormed) :
    (⟨[.test f.toText]⟩ : Expression).compile r kind = .ok q ↔
      Filter.parse f.toText = .ok f ∧ ∃ c, f.compile r kind .resource = .ok c ∧
        q = ⟨[.test c]⟩ := by
  rw [← List.nil_append [Segment.test _], compile_snoc rfl]
  constructor
  · rintro ⟨front, step, next, last, hfront, hstep, hsteps⟩
    obtain ⟨rfl, rfl⟩ := compilesTo_nil.mp hfront
    cases hstep with
    | test hparse hc =>
      obtain ⟨-, -, rfl⟩ := (Filter.parse_toText hf).mp hparse
      obtain ⟨steps⟩ := q
      exact ⟨hparse, _, hc, congrArg Query.mk hsteps⟩
  · rintro ⟨hread, c, hc, rfl⟩
    exact ⟨[], .test c, .resource, .resource, .nil, .test hread hc, rfl⟩

theorem toText_present (name : String) :
    (Filter.present (.ofName name)).toText = name ++ " pr" := by
  rw [Filter.toText, toText_ofName]

/-- The presence of a name that is not too long is one test. -/
theorem parse_present (hname : isAttributeName name.toList = true)
    (hnot : sameName name "not" = false)
    (hlen : utf8Length (name ++ " pr").toList ≤ Filter.greatestLength) :
    Filter.parse (name ++ " pr") = .ok (.present (.ofName name)) ∧
      parse r (name ++ " pr") = .ok ⟨[.test (name ++ " pr")]⟩ := by
  have hlegible : Legible (.present (.ofName name)) :=
    ⟨.ofName hname, rfl, Nat.zero_le _, by simpa [Filter.paths, AttributePath.ofName] using hnot⟩
  rw [← toText_present] at hlen ⊢
  refine ⟨hlegible.parse_toText hlen, (parse_toText hlegible.wellFormed hlen).mpr ?_⟩
  have hword : (Filter.present (.ofName name)).toText.toList =
      name.toList ++ ' ' :: 'p' :: ['r'] := by
    simp [toText_present]
  exact parseTrimmed_named hlegible hlen hname (by decide) hword

/-- Where the equality of a name with null is read and compiled, so is its presence. The one holds
where the other does not, but for lists of complex values without a `value`, where both hold. -/
theorem compile_eqNull (hname : isAttributeName name.toList = true)
    (hread : parse r (name ++ " eq null") = .ok e) (hcompile : e.compile r kind = .ok q) :
    ∃ a e' q', kind.attribute? name = some a ∧ parse r (name ++ " pr") = .ok e' ∧
      e'.compile r kind = .ok q' ∧ ∀ resource,
        (¬a.LacksValues resource → (q.holds resource = true ↔ ¬q'.holds resource = true)) ∧
          (a.LacksValues resource → q.holds resource = true ∧ q'.holds resource = true) := by
  have hwell : (Filter.compare (.ofName name) .eq .null).WellFormed := ⟨.ofName hname, trivial⟩
  have hnull : scanLiteral "null".toList = .ok (.null, []) := by decide
  have htext : (Filter.compare (.ofName name) .eq .null).toText = name ++ " eq null" := by
    simp [Filter.toText, toText_ofName, CompareOp.word, Literal.toText, ← String.toList_inj]
  have hcompared : name ++ " eq null" = comparisonText name .eq "null" := by
    simp [← String.toList_inj, Filter.comparisonText_toList, CompareOp.word]
  cases parse_plain hname hnull (hcompared ▸ hread)
  obtain ⟨hself, c, hc, rfl⟩ := (compile_single hwell).mp hcompile
  obtain ⟨hlen, -, -⟩ := (Filter.parse_toText hwell).mp hself
  obtain ⟨resolved, literal, hresolved, hsupports, hliteral, rfl⟩ :=
    compileComparison_eq_ok.mp hc
  cases hliteral
  obtain ⟨front, inside, hplace, hreach⟩ := AttributePath.resolve_eq_ok.mp hresolved
  -- a name without a schema is looked for at the top of the resource
  cases hplace
  obtain ⟨a, ha, rfl⟩ := (AttributePath.reach_name rfl).mp hreach
  rw [List.nil_append] at hresolved hsupports
  have hshorter : utf8Length (name ++ " pr").toList ≤ Filter.greatestLength := by
    rw [htext] at hlen
    simp only [String.toList_append, utf8Length_append] at hlen ⊢
    exact le_trans (Nat.add_le_add_left (by decide) _) hlen
  obtain ⟨hpresent, hread'⟩ :=
    parse_present (r := r) hname (kind.attribute?_not ha) hshorter
  refine ⟨a, _, ⟨[.test (.present [a.name])]⟩, ha, hread', ?_, fun resource => ?_⟩
  · have hpresented : (Filter.present (.ofName name)).WellFormed := .ofName hname
    rw [← toText_present name]
    refine (compile_single hpresented).mpr ⟨by rwa [toText_present], _, ?_, rfl⟩
    exact Filter.compile_present.mpr ⟨_, hresolved, rfl⟩
  · rw [List.nil_append, Query.holds_test, Query.holds_test]
    exact Attribute.null_or_present (findAttribute?_mem ha) hsupports _ resource

/-- A user with addresses, each of which has some members. -/
def reachedAt (emails : List (List (String × Json))) : Json :=
  .obj [("emails", .arr (emails.map .obj)), ("userName", .str "bj")]

/-- The addresses of a user are assigned, and they are not equal to null. -/
theorem compile_eqNull_emails : ∃ e q e' q', parse .standard "emails eq null" = .ok e ∧
    e.compile .standard .user = .ok q ∧ parse .standard "emails pr" = .ok e' ∧
      e'.compile .standard .user = .ok q' ∧
        (q.holds (reachedAt [[("value", .str "a")]]) = true ↔
          ¬q'.holds (reachedAt [[("value", .str "a")]]) = true) := by
  let unreached : Query := ⟨[.test (.compare ["emails", "value"] .eq .null false)]⟩
  have hread : parse .standard ("emails" ++ " eq null") = .ok ⟨[.test "emails eq null"]⟩ := by
    decide +kernel
  have hcompile : (⟨[.test "emails eq null"]⟩ : Expression).compile .standard .user =
      .ok unreached := by decide +kernel
  obtain ⟨a, e', q', ha, hread', hcompile', hnull⟩ := compile_eqNull (by decide) hread hcompile
  have hname : a.name = "emails" := by
    have hfound : (Kind.user.attribute? "emails").map Attribute.name = some "emails" := by
      decide +kernel
    rw [ha] at hfound
    exact Option.some.inj hfound
  have hvalued : ¬a.LacksValues (reachedAt [[("value", .str "a")]]) := by
    intro hlacks
    have hlacking := hlacks.lacking
    rw [hname] at hlacking
    revert hlacking
    decide +kernel
  exact ⟨_, _, e', q', hread, hcompile, hread', hcompile', (hnull _).1 hvalued⟩

/-- Addresses without a `value` are assigned, and yet equal to null. -/
theorem eqNull_not_complement : ∃ e q e' q', parse .standard "emails eq null" = .ok e ∧
    e.compile .standard .user = .ok q ∧ parse .standard "emails pr" = .ok e' ∧
      e'.compile .standard .user = .ok q' ∧
        q.holds (reachedAt [[("type", .str "work")]]) = true ∧
          q'.holds (reachedAt [[("type", .str "work")]]) = true :=
  ⟨⟨[.test "emails eq null"]⟩, ⟨[.test (.compare ["emails", "value"] .eq .null false)]⟩,
    ⟨[.test "emails pr"]⟩, ⟨[.test (.present ["emails"])]⟩, by decide +kernel, by decide +kernel,
    by decide +kernel, by decide +kernel, by decide +kernel, by decide +kernel⟩

end Expression

end Roster
