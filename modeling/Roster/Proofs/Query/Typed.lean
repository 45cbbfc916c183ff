import Roster.Proofs.Patch.Canonical
import Roster.Proofs.Query.Bracketed
import Roster.Query.SortKey

/-! What sort keys read. A value is typed when all that names of attributes lead to can be read at
the type in question, at every depth. Checked values are typed, and of a typed resource a sort key
can read every value. -/

namespace Roster

variable {r : Registry} {kind : Kind} {type : AttributeType} {definitions : List Attribute}
  {a : Attribute} {v : Json} {ms : Members Json}

/-! ### Typed values -/

/-- A value whose members of the given type can be read, in the scope of some definitions. It has no
member under the identifier of an extension. -/
inductive Typed (r : Registry) (kind : Kind) (type : AttributeType) : List Attribute → Json → Prop
  | intro {definitions : List Attribute} {v : Json}
      (reads : ∀ name a x, findAttribute? definitions name = some a → v.member? a.name = some x →
        a.type = type → ∀ y ∈ x.flatten, (TypedValue.ofJson? type y).isSome = true)
      (inner : ∀ name a x, findAttribute? definitions name = some a → v.member? a.name = some x →
        ∀ y ∈ x.flatten, Typed r kind type a.subAttributes y)
      (plain : ∀ s, Registered r kind s → v.member? s.id = none) :
      Typed r kind type definitions v

/-- A value of an attribute that is typed, and can be read if the attribute is of the type. -/
structure TypedAt (r : Registry) (kind : Kind) (type : AttributeType) (a : Attribute) (y : Json) :
    Prop where
  reads : a.type = type → (TypedValue.ofJson? type y).isSome = true
  inner : Typed r kind type a.subAttributes y

/-- A resource whose values are typed, those of its extensions too. -/
structure TypedResource (r : Registry) (kind : Kind) (type : AttributeType) (v : Json) : Prop where
  defined : ∀ name a x, kind.attribute? name = some a → v.member? a.name = some x →
    ∀ y ∈ x.flatten, TypedAt r kind type a y
  registered : ∀ s, Registered r kind s → ∀ x, v.member? s.id = some x →
    ∀ y ∈ x.flatten, Typed r kind type s.attributes y

theorem member?_eq_some {name : String} {x : Json} (h : v.member? name = some x) :
    ∃ ms key, v = .obj ms ∧ (key, x) ∈ ms ∧ sameName name key = true := by
  cases v with
  | obj ms =>
    obtain ⟨key, hs, hm⟩ := Members.mem_of_find? h
    exact ⟨ms, key, rfl, hm, hs⟩
  | _ => simp [Json.member?, Json.members?] at h

/-- A value that is not an object has no members. -/
theorem typed_of_not_object (h : v.isObject = false) : Typed r kind type definitions v := by
  have hnone (name : String) : v.member? name = none := by
    cases v with
    | obj ms => cases h
    | _ => rfl
  refine .intro (fun _ _ _ _ hx => ?_) (fun _ _ _ _ hx => ?_) fun s _ => hnone s.id
  · simp [hnone] at hx
  · simp [hnone] at hx

/-- An object is typed when its members are those of definitions, with typed values. -/
theorem typed_object (h : ∀ m ∈ ms, ∃ a, findAttribute? definitions m.1 = some a ∧
    isUrn m.1 = false ∧ ∀ y ∈ m.2.flatten, TypedAt r kind type a y) :
    Typed r kind type definitions (.obj ms) := by
  have value {name : String} {a : Attribute} {x : Json}
      (ha : findAttribute? definitions name = some a) (hx : (Json.obj ms).member? a.name = some x) :
      ∀ y ∈ x.flatten, TypedAt r kind type a y := by
    obtain ⟨_, key, heq, hm, hs⟩ := member?_eq_some hx
    cases heq
    obtain ⟨b, hb, -, hy⟩ := h _ hm
    -- the name under which the value is held has the same definition
    rw [← findAttribute?_congr definitions hs, findAttribute?_name ha] at hb
    cases hb
    exact hy
  refine .intro (fun name a x ha hx ht y hy => (value ha hx y hy).reads ht)
    (fun name a x ha hx y hy => (value ha hx y hy).inner) fun s hs => ?_
  cases hx : (Json.obj ms).member? s.id with
  | none => rfl
  | some x =>
    obtain ⟨_, key, heq, hm, hsame⟩ := member?_eq_some hx
    cases heq
    obtain ⟨-, -, hurn, -⟩ := h _ hm
    rw [← isUrn_congr hsame, registered_isUrn hs] at hurn
    cases hurn

/-! ### Checked values -/

/-- An attribute without numbers, whose members have names other than URNs, at every depth. -/
inductive Attribute.Plain : Attribute → Prop
  | intro {a : Attribute} (type : a.type ≠ .integer ∧ a.type ≠ .decimal)
      (name : isUrn a.name = false) (sub : ∀ b ∈ a.subAttributes, b.Plain) : a.Plain

theorem Attribute.Plain.name_not_urn (h : a.Plain) : isUrn a.name = false := by
  cases h with
  | intro _ hname _ => exact hname

/-- What a check admits at a type without numbers can be read at it. -/
theorem ofJson?_of_admit? (ht : type ≠ .integer ∧ type ≠ .decimal) (h : type.admit? v = some v) :
    (TypedValue.ofJson? type v).isSome = true := by
  cases type with
  | string | reference | binary =>
    obtain ⟨text, htext, -⟩ := Option.map_eq_some_iff.mp h
    simp [TypedValue.ofJson?, htext]
  | boolean =>
    have hform := h
    simp only [AttributeType.admit?] at hform
    split at hform
    · rfl
    · split_ifs at hform <;> cases hform
    · cases hform
  | dateTime =>
    obtain ⟨text, htext, hread⟩ := Option.bind_eq_some_iff.mp h
    obtain ⟨t, ht, -⟩ := Option.map_eq_some_iff.mp hread
    simp [TypedValue.ofJson?, Json.instant?, htext, ht]
  | integer => exact absurd rfl ht.1
  | decimal => exact absurd rfl ht.2
  | complex => cases h

theorem checkSingle_arr (a : Attribute) (items : List Json) (v : Json) :
    checkSingle a (.arr items) ≠ .ok v := by
  rw [checkSingle_of_not_object rfl]
  intro h
  have hadmit := checkScalar_eq_ok.mp (guard_eq_ok.mp h).2
  cases htype : a.type <;> simp [htype, AttributeType.admit?, Json.string?, Json.number?] at hadmit

/-- A value that is checked is one that is checked by itself, or a list of such. -/
theorem checkSingle_of_mem_flatten (h : checkValue a v = .ok v) :
    ∀ y ∈ v.flatten, checkSingle a y = .ok y := by
  by_cases hm : a.multiValued = true
  · obtain ⟨items, rfl, hitems⟩ := (checkValue_list_self_iff hm).mp h
    exact hitems
  · rw [checkValue_singular (by simpa using hm)] at h
    cases v with
    | arr items => exact absurd h (checkSingle_arr a items _)
    | _ => simpa [Json.flatten] using h

theorem typed_checkedObject (ho : CheckedObject definitions ms)
    (hd : ∀ b ∈ definitions, isUrn b.name = false ∧
      ∀ y, checkSingle b y = .ok y → TypedAt r kind type b y) :
    Typed r kind type definitions (.obj ms) := by
  refine typed_object fun m hm => ?_
  obtain ⟨b, hb, hname, -, hv⟩ := (ho.checked m hm).checked
  obtain ⟨hurn, hvalue⟩ := hd b (findAttribute?_mem hb)
  exact ⟨b, hb, hname ▸ hurn, fun y hy => hvalue y (checkSingle_of_mem_flatten hv y hy)⟩

/-- A checked value of a plain attribute is typed. -/
theorem Attribute.Plain.typedAt (hp : a.Plain) (hc : type ≠ .complex)
    (h : checkSingle a v = .ok v) : TypedAt r kind type a v := by
  induction hp generalizing v with
  | @intro a ht hname hsub ih =>
    by_cases hcomplex : a.type = .complex
    · have hobj := h
      rw [checkSingle_complex hcomplex, map_eq_ok] at hobj
      obtain ⟨ms, -, rfl⟩ := hobj
      refine ⟨fun htype => absurd (htype.symm.trans hcomplex) hc, ?_⟩
      refine typed_checkedObject (checkSingle_obj_self_iff.mp h).2 fun b hb =>
        ⟨(hsub b hb).name_not_urn, fun y hy => ih b hb hy⟩
    · rw [checkSingle_of_ne_complex hcomplex, checkScalar_eq_ok] at h
      refine ⟨fun htype => htype ▸ ofJson?_of_admit? ht h, ?_⟩
      exact typed_of_not_object (admit?_admitted h).2.2

/-! ### Typed resources -/

/-- A text is read at the types of texts. -/
theorem typedAt_text (ha : a.type = .string ∨ a.type = .reference) (text : String) :
    TypedAt r kind type a (.str text) where
  reads ht := by
    subst ht
    rcases ha with ha | ha <;> simp [ha, TypedValue.ofJson?, Json.string?]
  inner := typed_of_not_object rfl

/-- A member of a typed resource: its list of schemas, the value of an attribute, or the object of
an extension. -/
inductive TypedMember (r : Registry) (kind : Kind) (type : AttributeType) : String × Json → Prop
  | schemas (v : Json) : TypedMember r kind type ("schemas", v)
  | defined {key : String} {a : Attribute} {v : Json} (found : kind.attribute? key = some a)
      (value : ∀ y ∈ v.flatten, TypedAt r kind type a y) : TypedMember r kind type (key, v)
  | registered {s : Schema} {v : Json} (known : Registered r kind s)
      (value : ∀ y ∈ v.flatten, Typed r kind type s.attributes y) :
      TypedMember r kind type (s.id, v)

/-- A resource is typed when its members are. -/
theorem typedResource_of_members (h : ∀ m ∈ ms, TypedMember r kind type m) :
    TypedResource r kind type (.obj ms) where
  defined name a x ha hx := by
    obtain ⟨_, key, heq, hm, hsame⟩ := member?_eq_some hx
    cases heq
    have hfound := findAttribute?_name ha
    cases h _ hm with
    | schemas => simp [schemas_not_attribute kind a (findAttribute?_mem ha)] at hsame
    | @defined _ b _ hb hy =>
      rw [Kind.attribute?, ← findAttribute?_congr _ hsame, hfound] at hb
      cases hb
      exact hy
    | registered hs =>
      rw [extension_not_same hs (attributes_not_urn kind a (findAttribute?_mem ha))] at hsame
      cases hsame
  registered s hs x hx := by
    obtain ⟨_, key, heq, hm, hsame⟩ := member?_eq_some hx
    cases heq
    have hurn : isUrn key = true := (isUrn_congr hsame).symm.trans (registered_isUrn hs)
    cases h _ hm with
    | schemas =>
      have hnot : isUrn "schemas" = false := by decide
      rw [hnot] at hurn
      cases hurn
    | @defined _ b _ hb _ =>
      rw [← isUrn_congr (findAttribute?_sameName hb),
        attributes_not_urn kind b (findAttribute?_mem hb)] at hurn
      cases hurn
    | registered ht hy => exact registered_unique hs ht hsame ▸ hy

/-! ### What a sort key reads -/

theorem mem_collect {values : List Json} {name : String} {y : Json} :
    y ∈ Json.collect values [name] ↔
      ∃ v ∈ values, ∃ x, v.member? name = some x ∧ y ∈ x.flatten := by
  simp only [Json.collect, List.mem_flatMap]
  refine exists_congr fun v => and_congr_right fun _ => ?_
  cases v.member? name <;> simp

/-- The names of attributes lead from typed values to typed values. -/
theorem typedAt_collect {values : List Json} {name : String}
    (hv : ∀ v ∈ values, Typed r kind type definitions v)
    (ha : findAttribute? definitions name = some a) :
    ∀ y ∈ Json.collect values [a.name], TypedAt r kind type a y := by
  intro y hy
  obtain ⟨v, hmem, x, hx, hy⟩ := mem_collect.mp hy
  cases hv v hmem with
  | intro reads inner _ => exact ⟨fun ht => reads _ _ _ ha hx ht y hy, inner _ _ _ ha hx y hy⟩

/-- Neither does the identifier of an extension lead anywhere from them. -/
theorem collect_registered {values : List Json} {s : Schema} (hs : Registered r kind s)
    (hv : ∀ v ∈ values, Typed r kind type definitions v) : Json.collect values [s.id] = [] := by
  refine List.flatMap_eq_nil_iff.mpr fun v hmem => ?_
  cases hv v hmem with
  | intro _ _ plain => simp [plain s hs]

namespace SortKey

variable {path : String} {keys keys' : List String} {traits traits' : Option Traits}
  {values : List Json}

/-- Values read at the traits of an attribute. -/
def Reads (type : AttributeType) (traits : Option Traits) (values : List Json) : Prop :=
  ∀ t ∈ traits, t.type = type → ∀ y ∈ values, (TypedValue.ofJson? type y).isSome = true

theorem reads_attribute (hv : ∀ y ∈ values, TypedAt r kind type a y) :
    Reads type (some a.traits) values := by
  rintro t ⟨⟩ ht y hy
  exact (hv y hy).reads ht

/-- The attribute that is compared in place of a list of complex values is read as well. -/
theorem reads_compared (hv : ∀ y ∈ values, TypedAt r kind type a y) (keys : List String) :
    ∃ more, (Resolved.compared ⟨keys, a.traits, a.subAttributes⟩).keys = keys ++ more ∧
      Reads type (some (Resolved.compared ⟨keys, a.traits, a.subAttributes⟩).traits)
        (Json.collect values more) := by
  unfold Resolved.compared
  split_ifs
  · split
    · rename_i value hvalue
      exact ⟨[value.name], rfl, reads_attribute (typedAt_collect (fun v hmem => (hv v hmem).inner)
        hvalue)⟩
    · exact ⟨[], (List.append_nil _).symm, reads_attribute hv⟩
  · exact ⟨[], (List.append_nil _).symm, reads_attribute hv⟩

/-- What segments behind an attribute lead to: the attribute itself, as it is compared, if there are
none. -/
theorem reads_behind {rest : List Segment} (hv : ∀ y ∈ values, TypedAt r kind type a y)
    (hrest : follow r kind path (.members a.subAttributes) keys (some a.traits) rest =
        .ok (keys', traits') →
      ∃ more, keys' = keys ++ more ∧ Reads type traits' (Json.collect values more))
    (h : (let found : Resolved := ⟨keys, a.traits, a.subAttributes⟩
      let found := if rest.isEmpty then found.compared else found
      follow r kind path (.members a.subAttributes) found.keys (some found.traits) rest) =
        .ok (keys', traits')) :
    ∃ more, keys' = keys ++ more ∧ Reads type traits' (Json.collect values more) := by
  cases rest with
  | nil =>
    cases h
    exact reads_compared hv keys
  | cons s rest => exact hrest h

/-- What segments lead to from typed values is read at the traits they end with. -/
theorem reads_follow {segments : List Segment}
    (h : follow r kind path (.members definitions) keys traits segments = .ok (keys', traits'))
    (hv : ∀ v ∈ values, Typed r kind type definitions v) (ht : Reads type traits values) :
    ∃ more, keys' = keys ++ more ∧ Reads type traits' (Json.collect values more) := by
  induction segments generalizing definitions keys traits values with
  | nil =>
    cases h
    exact ⟨[], (List.append_nil _).symm, ht⟩
  | cons s rest ih =>
    cases s with
    | name name =>
      rw [follow] at h
      by_cases hurn : (Segment.name name).isSchemaUrn = true
      · rw [if_pos hurn] at h
        split at h
        · rename_i extension hext
          -- nothing is reached any more
          have hnone := collect_registered ⟨name, hext, hurn⟩ hv
          obtain ⟨more, hkeys, hreads⟩ := @ih _ _ _ [] h (by simp) (by simp [Reads])
          refine ⟨extension.id :: more, by simp [hkeys], ?_⟩
          have hcollect : Json.collect values (extension.id :: more) = Json.collect [] more := by
            rw [← hnone, ← Json.collect_append]
            rfl
          rwa [hcollect]
        · cases h
      · rw [if_neg hurn] at h
        split at h
        · cases h
        · rename_i a ha
          have hat := typedAt_collect hv ha
          obtain ⟨more, hkeys, hreads⟩ := reads_behind hat (fun h => ih h
            (fun y hy => (hat y hy).inner) (reads_attribute hat)) h
          refine ⟨a.name :: more, by simp [hkeys], ?_⟩
          rwa [← Json.collect_append] at hreads
    | _ => cases h

/-- So it is from the top of a typed resource. -/
theorem reads_resource {segments : List Segment}
    (h : follow r kind path .resource [] none segments = .ok (keys, traits))
    (hv : TypedResource r kind type v) : Reads type traits (Json.collect [v] keys) := by
  cases segments with
  | nil =>
    cases h
    simp [Reads]
  | cons s rest =>
    cases s with
    | name name =>
      rw [follow] at h
      by_cases hurn : (Segment.name name).isSchemaUrn = true
      · rw [if_pos hurn] at h
        split at h
        · rename_i extension hext
          have hinner : ∀ y ∈ Json.collect [v] [extension.id],
              Typed r kind type extension.attributes y := by
            intro y hy
            obtain ⟨w, hw, x, hx, hyx⟩ := mem_collect.mp hy
            rw [List.mem_singleton.mp hw] at hx
            exact hv.registered extension ⟨name, hext, hurn⟩ x hx y hyx
          obtain ⟨more, rfl, hreads⟩ := reads_follow h hinner (by simp [Reads])
          rwa [← Json.collect_append] at hreads
        · cases h
      · rw [if_neg hurn] at h
        split at h
        · cases h
        · rename_i a ha
          have hat : ∀ y ∈ Json.collect [v] [a.name], TypedAt r kind type a y := by
            intro y hy
            obtain ⟨w, hw, x, hx, hyx⟩ := mem_collect.mp hy
            rw [List.mem_singleton.mp hw] at hx
            exact hv.defined name a x ha hx y hyx
          obtain ⟨more, rfl, hreads⟩ := reads_behind hat (fun h => reads_follow h
            (fun y hy => (hat y hy).inner) (reads_attribute hat)) h
          rwa [← Json.collect_append] at hreads
    | _ => cases h

/-- Of a typed resource, a sort key can read every value. -/
theorem isReadable_compile {e : Expression} {key : SortKey}
    (h : SortKey.compile r kind e = .ok key) (hv : TypedResource r kind key.traits.type v) :
    key.isReadable v = true := by
  obtain ⟨⟨keys, traits⟩, hfollow, h⟩ := bind_eq_ok.mp h
  cases traits with
  | none => cases h
  | some traits =>
    obtain ⟨-, hkey⟩ := guard_eq_ok.mp h
    cases hkey
    rw [isReadable, Option.all_eq_true]
    exact fun y hy => reads_resource hfollow hv traits rfl rfl y (List.mem_of_find?_eq_some hy)

theorem compile_ne_complex {e : Expression} {key : SortKey}
    (h : SortKey.compile r kind e = .ok key) : key.traits.type ≠ .complex := by
  obtain ⟨⟨keys, traits⟩, -, h⟩ := bind_eq_ok.mp h
  cases traits with
  | none => cases h
  | some traits =>
    obtain ⟨hne, hkey⟩ := guard_eq_ok.mp h
    cases hkey
    simpa using hne

end SortKey

end Roster
