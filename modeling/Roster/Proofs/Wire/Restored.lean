import Roster.Proofs.Wire

/-! What version 1 of the protocol loses of a resource: the type that its metadata state, and
nothing else. The URNs of version 1 are fewer, so that a resource may not use them on its own. -/

namespace Roster

namespace ProtocolVersion

variable {core : String} {items : List Json}

/-- A name that both versions spell alike: in whatever case, it is no URN that they exchange. -/
def Unlisted (name : String) : Prop :=
  ∀ p ∈ urns, sameName p.1 name = false ∧ sameName p.2 name = false

instance (name : String) : Decidable (Unlisted name) :=
  inferInstanceAs (Decidable (∀ p ∈ urns, _))

/-- A list of schemas that version 1 can carry for a kind with the schema `core`. -/
structure PortableSchemas (core : String) (v : Json) : Prop where
  listed : ∃ names : List String, v = .arr (names.map .str) ∧ names.Nodup ∧
    ∀ urn ∈ names, urn = core ∨ urn = Urn.enterpriseUser ∨ Unlisted urn

/-- The members of a resource that version 1 can carry. -/
structure Portable (core : String) (ms : Members Json) : Prop where
  schemas : ∀ v, Members.get? ms "schemas" = some v → PortableSchemas core v
  names : ∀ m ∈ ms, m.1 ≠ "schemas" → m.1 = Urn.enterpriseUser ∨ Unlisted m.1

/-- The resource without the type that its metadata state. -/
def untyped (resource : Json) : Json :=
  match resource.get? "meta" with
  | some (.obj held) => resource.put "meta" (.obj (Members.erase held "resourceType"))
  | _ => resource

/-! ### Unlisted names -/

theorem Unlisted.toLegacy? {name : String} (h : Unlisted name) : toLegacy? name = none := by
  rw [ProtocolVersion.toLegacy?, Option.map_eq_none_iff, List.find?_eq_none]
  intro p hp
  simp [(h p hp).1]

theorem Unlisted.ofLegacy? {name : String} (h : Unlisted name) : ofLegacy? name = none := by
  rw [ProtocolVersion.ofLegacy?, Option.map_eq_none_iff, List.find?_eq_none]
  intro p hp
  simp [(h p hp).2]

/-- An unlisted name is none of the URNs of version 1. -/
theorem Unlisted.not_legacy {name : String} (h : Unlisted name) :
    sameName name Urn.legacyCore = false ∧ sameName name Urn.legacyEnterprise = false := by
  rw [sameName_comm name, sameName_comm name]
  exact ⟨(h (Urn.user, Urn.legacyCore) (by simp [urns])).2,
    (h (Urn.enterpriseUser, Urn.legacyEnterprise) (by simp [urns])).2⟩

/-- The names that version 1 can carry are restored. -/
theorem currentKey_legacyKey_of_portable {name : String}
    (h : name ≠ "schemas" → name = Urn.enterpriseUser ∨ Unlisted name) :
    currentKey (legacyKey name) = name := by
  by_cases hs : name = "schemas"
  · rw [hs]
    rfl
  · rcases h hs with henterprise | hu
    · exact currentKey_legacyKey (.inr henterprise)
    · have hstays : legacyKey name = name := by
        rw [legacyKey, hu.toLegacy?]
        split_ifs <;> rfl
      rw [hstays, currentKey, if_neg hs, hu.not_legacy.2]
      rfl

/-! ### Lists of schemas -/

/-- Each URN that version 1 can carry is restored. -/
theorem currentSchema_legacySchema_of_portable (kind : Kind) {urn : String}
    (h : urn = kind.coreSchema.id ∨ urn = Urn.enterpriseUser ∨ Unlisted urn) :
    currentSchema kind.coreSchema.id (legacySchema (.str urn)) = .str urn := by
  rcases h with hcore | henterprise | hu
  · exact currentSchema_legacySchema kind (.inl hcore)
  · exact currentSchema_legacySchema kind (.inr henterprise)
  · simp [legacySchema, currentSchema, hu.toLegacy?, hu.ofLegacy?, hu.not_legacy.1]

/-- A list in which no two values are equal keeps all of them. -/
theorem kept_of_apart (kept : List Json)
    (h : (kept ++ items).Pairwise fun v w => v.same w = false) :
    items.foldl (fun kept v => if kept.any (·.same v) then kept else kept ++ [v]) kept =
      kept ++ items := by
  induction items generalizing kept with
  | nil => simp
  | cons v rest ih =>
    have hnew : kept.any (·.same v) = false := by
      rw [List.any_eq_false]
      intro w hw
      have hapart := (List.pairwise_append.mp h).2.2 w hw v List.mem_cons_self
      simp [hapart]
    rw [List.foldl_cons, hnew]
    simpa using ih (kept ++ [v]) (by simpa using h)

/-- The list of schemas is restored: different URNs have different ones in version 1. -/
theorem currentMember_schemas (kind : Kind) {v : Json}
    (h : PortableSchemas kind.coreSchema.id v) :
    currentMember kind.coreSchema.id "schemas" (legacyMember "schemas" v).2 = ("schemas", v) := by
  obtain ⟨names, rfl, hnodup, hnames⟩ := h.listed
  have hback : ∀ urn ∈ names,
      currentSchema kind.coreSchema.id (legacySchema (.str urn)) = .str urn :=
    fun urn hurn => currentSchema_legacySchema_of_portable kind (hnames urn hurn)
  have hapart : ((names.map Json.str).map legacySchema).Pairwise fun v w => v.same w = false := by
    rw [List.map_map, List.pairwise_map]
    refine hnodup.imp_of_mem fun {a b} ha hb hne => ?_
    rw [Bool.eq_false_iff]
    intro hsame
    -- equal URNs of version 1 would be restored to equal ones
    have heq : legacySchema (.str a) = legacySchema (.str b) := by
      simpa [legacySchema, Json.same] using hsame
    have hab : Json.str a = .str b := by rw [← hback a ha, heq, hback b hb]
    exact hne (Json.str.inj hab)
  have hsent : (legacyMember "schemas" (.arr (names.map .str))).2 =
      .arr ((names.map Json.str).map legacySchema) := by
    have hkept := kept_of_apart [] hapart
    rw [List.nil_append] at hkept
    simp only [legacyMember, if_true, Json.items?, Option.getD_some, hkept]
  have hitems : ((names.map Json.str).map legacySchema).map (currentSchema kind.coreSchema.id) =
      names.map Json.str := by
    rw [List.map_map, List.map_map]
    exact List.map_congr_left hback
  rw [hsent, currentMember, if_pos rfl, Json.items?, Option.getD_some, hitems]

/-! ### Resources -/

/-- What comes back of a member: only metadata lose something. -/
def untypedMember (m : String × Json) : String × Json :=
  match m with
  | ("meta", .obj held) => ("meta", .obj (Members.erase held "resourceType"))
  | m => m

theorem untypedMember_key (m : String × Json) : (untypedMember m).1 = m.1 := by
  unfold untypedMember
  split <;> rfl

theorem untypedMember_of_ne {m : String × Json} (h : m.1 ≠ "meta") : untypedMember m = m := by
  unfold untypedMember
  split
  · exact absurd rfl h
  · rfl

/-- A member of a resource that version 1 can carry comes back. -/
theorem currentMember_untyped (kind : Kind) {m : String × Json}
    (hname : m.1 ≠ "schemas" → m.1 = Urn.enterpriseUser ∨ Unlisted m.1)
    (hschemas : m.1 = "schemas" → PortableSchemas kind.coreSchema.id m.2) :
    currentMember kind.coreSchema.id (legacyMember m.1 m.2).1 (legacyMember m.1 m.2).2 =
      untypedMember m := by
  by_cases hmeta : m.1 = "meta"
  · obtain ⟨key, v⟩ := m
    subst hmeta
    have hkey : sameName "meta" Urn.legacyEnterprise = false := by decide
    cases v <;> simp [legacyMember, currentMember, untypedMember, hkey]
  · rw [untypedMember_of_ne hmeta]
    exact currentMember_legacyMember (currentKey_legacyKey_of_portable hname) hmeta
      fun hs => currentMember_schemas kind (hschemas hs)

theorem get?_untypedMember (ms : Members Json) (key : String) :
    Members.get? (ms.map untypedMember) key =
      (Members.get? ms key).map fun v => (untypedMember (key, v)).2 := by
  induction ms with
  | nil => rfl
  | cons m rest ih =>
    obtain ⟨k, v⟩ := m
    have hfirst : untypedMember (k, v) = (k, (untypedMember (k, v)).2) :=
      Prod.ext (untypedMember_key (k, v)) rfl
    rw [List.map_cons, hfirst, Members.get?, Members.get?, ih]
    by_cases hk : k = key
    · rw [if_pos hk, if_pos hk, hk]
      rfl
    · rw [if_neg hk, if_neg hk]

/-- Putting metadata back leaves every other member in its place. -/
theorem untyped_members {ms : Members Json} (hs : Members.Sorted ms) :
    untyped (.obj ms) = .obj (ms.map untypedMember) := by
  have hsorted : Members.Sorted (ms.map untypedMember) := by
    refine List.pairwise_map.mpr (hs.imp fun {a b} hlt => ?_)
    rwa [untypedMember_key, untypedMember_key]
  have hother {key : String} (hkey : key ≠ "meta") :
      Members.get? (ms.map untypedMember) key = Members.get? ms key := by
    rw [get?_untypedMember]
    cases Members.get? ms key with
    | none => rfl
    | some v => exact congrArg some (congrArg Prod.snd (untypedMember_of_ne (m := (key, v)) hkey))
  have hheld : Members.get? (ms.map untypedMember) "meta" =
      (Members.get? ms "meta").map fun v => (untypedMember ("meta", v)).2 :=
    get?_untypedMember ms "meta"
  have hget : (Json.obj ms).get? "meta" = Members.get? ms "meta" := rfl
  unfold untyped
  split
  · rename_i held hmeta
    rw [hget] at hmeta
    rw [hmeta] at hheld
    refine congrArg Json.obj (Members.ext_get? (Members.sorted_insert _ _ hs) hsorted fun key => ?_)
    by_cases hkey : key = "meta"
    · rw [hkey, Members.get?_insert_self, hheld]
      rfl
    · rw [Members.get?_insert_of_ne _ _ hkey, hother hkey]
  · rename_i hno
    rw [hget] at hno
    refine congrArg Json.obj (Members.ext_get? hs hsorted fun key => ?_)
    by_cases hkey : key = "meta"
    · rw [hkey, hheld]
      cases hmeta : Members.get? ms "meta" with
      | none => rfl
      | some v =>
        cases v with
        | obj held => exact absurd hmeta (hno held)
        | _ => rfl
    · rw [hother hkey]

/-- A resource that version 1 can carry comes back without the type in its metadata, and with all
else that it holds. -/
theorem decode_encode_untyped (kind : Kind) {ms : Members Json} (hs : Members.Sorted ms)
    (h : Portable kind.coreSchema.id ms) :
    v1.decode kind.coreSchema.id (v1.encode (.obj ms)) = untyped (.obj ms) := by
  have hback : ∀ m ∈ ms, currentKey (legacyKey m.1) = m.1 :=
    fun m hm => currentKey_legacyKey_of_portable (h.names m hm)
  have hmembers : ∀ m ∈ ms, currentMember kind.coreSchema.id (legacyMember m.1 m.2).1
      (legacyMember m.1 m.2).2 = untypedMember m :=
    fun m hm => currentMember_untyped kind (h.names m hm) fun hname =>
      h.schemas m.2 (Members.get?_of_mem hs (hname ▸ hm))
  rw [decode_encode_members hs hback, List.map_congr_left hmembers, untyped_members hs]

/-- A user with an extension of both versions and one of neither. -/
def portableUser : Members Json :=
  [ ("meta", .obj [("resourceType", .str "User"), ("version", .str "1")]),
    ("schemas", .arr [.str Urn.enterpriseUser, .str "urn:seat", .str Urn.user]),
    (Urn.enterpriseUser, .obj [("department", .str "Tours")]),
    ("urn:seat", .obj [("desk", .str "4")]), ("userName", .str "bj") ]

theorem decode_encode_untyped_user :
    Members.Sorted portableUser ∧ Portable Kind.user.coreSchema.id portableUser ∧
      v1.decode Kind.user.coreSchema.id (v1.encode (.obj portableUser)) =
        untyped (.obj portableUser) := by
  have hs : Members.Sorted portableUser := by
    unfold Members.Sorted
    decide
  have hp : Portable Kind.user.coreSchema.id portableUser := by
    refine ⟨fun v hv => ?_, by decide⟩
    obtain rfl : Json.arr [.str Urn.enterpriseUser, .str "urn:seat", .str Urn.user] = v :=
      Option.some.inj hv
    exact ⟨[Urn.enterpriseUser, "urn:seat", Urn.user], rfl, by decide, by decide⟩
  exact ⟨hs, hp, decode_encode_untyped .user hs hp⟩

end ProtocolVersion

end Roster
