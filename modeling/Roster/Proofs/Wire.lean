import Mathlib.Data.List.Nodup
import Roster.Proofs.Json
import Roster.Proofs.Members.Order
import Roster.Proofs.Patch.Names
import Roster.Wire

/-! Resources in the form of a version of the protocol and back. In version 1 names of extensions
and the list of schemas change, and all but the metadata is restored. -/

namespace Roster

namespace ProtocolVersion

variable {core : String} {m : String × Json}

/-! ### Names -/

/-- The URNs of both versions, and that no two of the names of members are taken for one another. -/
theorem urns_isUrn : ∀ p ∈ urns, isUrn p.1 = true ∧ isUrn p.2 = true := by
  decide

theorem not_same_urn {key urn : String} (hk : isUrn key = false) (hu : isUrn urn = true) :
    sameName key urn = false := by
  rw [Bool.eq_false_iff]
  intro hs
  rw [isUrn_congr hs, hu] at hk
  cases hk

/-- A name that is no URN stays. -/
theorem toLegacy?_eq_none {key : String} (hk : isUrn key = false) : toLegacy? key = none := by
  rw [toLegacy?, Option.map_eq_none_iff, List.find?_eq_none]
  intro p hp
  rw [sameName_comm, not_same_urn hk (urns_isUrn p hp).1]
  simp

/-- The URNs of resources in version 1. That of the enterprise extension leads back to it. -/
theorem toLegacy?_urns :
    (toLegacy? Urn.user = some Urn.legacyCore ∧ toLegacy? Urn.group = some Urn.legacyCore ∧
      toLegacy? Urn.enterpriseUser = some Urn.legacyEnterprise) ∧
    ofLegacy? Urn.legacyEnterprise = some Urn.enterpriseUser ∧
      sameName Urn.legacyEnterprise Urn.legacyCore = false := by
  decide

theorem toLegacy?_enterpriseUser : toLegacy? Urn.enterpriseUser = some Urn.legacyEnterprise :=
  toLegacy?_urns.1.2.2

theorem toLegacy?_coreSchema (kind : Kind) :
    toLegacy? kind.coreSchema.id = some Urn.legacyCore := by
  obtain ⟨⟨huser, hgroup, -⟩, -⟩ := toLegacy?_urns
  cases kind with
  | user => exact huser
  | group => exact hgroup

/-- The name that a member has in version 1. -/
def legacyKey (key : String) : String :=
  if key = "schemas" ∨ key = "meta" then key else (toLegacy? key).getD key

/-- The name that a member of version 1 has. -/
def currentKey (key : String) : String :=
  if key = "schemas" then key
  else if sameName key Urn.legacyEnterprise then Urn.enterpriseUser
  else key

theorem legacyMember_key (m : String × Json) : (legacyMember m.1 m.2).1 = legacyKey m.1 := by
  obtain ⟨key, v⟩ := m
  unfold legacyMember legacyKey
  by_cases hschemas : key = "schemas"
  · simp [hschemas]
  · by_cases hmeta : key = "meta"
    · cases v <;> simp [hmeta]
    · simp [hschemas, hmeta]

theorem currentMember_key (m : String × Json) :
    (currentMember core m.1 m.2).1 = currentKey m.1 := by
  unfold currentMember currentKey
  split_ifs <;> rfl

/-- The name of a member: that of the enterprise extension, or no URN. -/
def MemberName (key : String) : Prop :=
  isUrn key = false ∨ key = Urn.enterpriseUser

theorem currentKey_legacyKey {key : String} (hk : MemberName key) :
    currentKey (legacyKey key) = key := by
  rcases hk with hk | rfl
  · have hstays : legacyKey key = key := by
      rw [legacyKey, toLegacy?_eq_none hk]
      split_ifs <;> rfl
    have hurn : isUrn Urn.legacyEnterprise = true :=
      (urns_isUrn (Urn.enterpriseUser, Urn.legacyEnterprise) (by simp [urns])).2
    rw [hstays, currentKey, not_same_urn hk hurn]
    split_ifs <;> first | rfl | contradiction
  · have hlegacy : legacyKey Urn.enterpriseUser = Urn.legacyEnterprise := by
      rw [legacyKey, if_neg (by decide), toLegacy?_enterpriseUser, Option.getD_some]
    rw [hlegacy, currentKey, if_neg (by decide), if_pos (sameName_refl _)]

/-! ### Members -/

/-- A member of version 1 is restored, its metadata aside. -/
theorem currentMember_legacyMember (hk : currentKey (legacyKey m.1) = m.1) (hmeta : m.1 ≠ "meta")
    (hschemas : m.1 = "schemas" → currentMember core "schemas" (legacyMember "schemas" m.2).2 =
      ("schemas", m.2)) :
    currentMember core (legacyMember m.1 m.2).1 (legacyMember m.1 m.2).2 = m := by
  obtain ⟨key, v⟩ := m
  by_cases hs : key = "schemas"
  · subst hs
    exact hschemas rfl
  · have hlegacy : legacyMember key v = (legacyKey key, v) := by
      unfold legacyMember
      rw [if_neg hs, if_neg hmeta, legacyKey, if_neg (not_or.mpr ⟨hs, hmeta⟩)]
    rw [hlegacy]
    have hname : (currentMember core (legacyKey key) v).1 = key :=
      (currentMember_key (legacyKey key, v)).trans hk
    -- only the list of schemas has its value changed
    have hvalue : (currentMember core (legacyKey key) v).2 = v := by
      have hne : legacyKey key ≠ "schemas" := by
        intro heq
        have hback : currentKey (legacyKey key) = "schemas" := by
          rw [heq, currentKey, if_pos rfl]
        exact hs (hk.symm.trans hback)
      unfold currentMember
      split_ifs
      · contradiction
      · rfl
      · rfl
    exact Prod.ext hname hvalue

/-- A member of version 1 under its name in version 2. -/
theorem restored_key (hk : currentKey (legacyKey m.1) = m.1) :
    (currentMember core (legacyMember m.1 m.2).1 (legacyMember m.1 m.2).2).1 = m.1 := by
  rw [currentMember_key, legacyMember_key, hk]

/-- The URN of the enterprise extension is restored, and so is the core schema of the kind. -/
theorem currentSchema_legacySchema (kind : Kind) {urn : String}
    (hu : urn = kind.coreSchema.id ∨ urn = Urn.enterpriseUser) :
    currentSchema kind.coreSchema.id (legacySchema (.str urn)) = .str urn := by
  rcases hu with rfl | rfl
  · simp [legacySchema, currentSchema, toLegacy?_coreSchema]
  · obtain ⟨-, hback, hother⟩ := toLegacy?_urns
    simp [legacySchema, currentSchema, toLegacy?_enterpriseUser, hother, hback]

/-- The lists of schemas of resources are restored. -/
theorem schemas_restored (kind : Kind) {items : List Json}
    (hi : items = [.str kind.coreSchema.id] ∨
      items = [.str kind.coreSchema.id, .str Urn.enterpriseUser]) :
    currentMember kind.coreSchema.id "schemas" (legacyMember "schemas" (.arr items)).2 =
      ("schemas", .arr items) := by
  have hcore := currentSchema_legacySchema kind (.inl rfl)
  have hextension := currentSchema_legacySchema kind (.inr rfl)
  rcases hi with rfl | rfl
  · simp [legacyMember, currentMember, Json.items?, hcore]
  · -- the two stay apart in version 1
    have hapart : (legacySchema (.str kind.coreSchema.id)).same
        (legacySchema (.str Urn.enterpriseUser)) = false := by
      simp only [legacySchema, toLegacy?_coreSchema, toLegacy?_enterpriseUser, Option.getD_some]
      decide
    simp [legacyMember, currentMember, Json.items?, hcore, hextension, hapart]

/-! ### Resources -/

/-- A resource in the form of version 1 and back has each of its members restored in its place,
where their names are. -/
theorem decode_encode_members {ms : Members Json} (hs : Members.Sorted ms)
    (hk : ∀ m ∈ ms, currentKey (legacyKey m.1) = m.1) :
    v1.decode core (v1.encode (.obj ms)) =
      .obj (ms.map fun m =>
        currentMember core (legacyMember m.1 m.2).1 (legacyMember m.1 m.2).2) := by
  let sent := ms.map fun m => legacyMember m.1 m.2
  let restored := sent.map fun m => currentMember core m.1 m.2
  have hkeys : Members.keys restored = Members.keys ms := by
    simp only [restored, sent, Members.keys, List.map_map]
    exact List.map_congr_left fun m hm => restored_key (hk m hm)
  have hnodup : (Members.keys restored).Nodup := hkeys ▸ Members.nodup_keys hs
  -- as the names are told apart again, they are told apart in between
  have hsent : (Members.keys sent).Nodup := by
    have hmap : Members.keys restored = (Members.keys sent).map currentKey := by
      simp only [restored, Members.keys, List.map_map]
      exact List.map_congr_left fun m _ => currentMember_key m
    rw [hmap] at hnodup
    exact List.Nodup.of_map currentKey hnodup
  have hperm : (Members.ofList sent).Perm sent := by
    refine (List.perm_ext_iff_of_nodup ?_ ?_).mpr fun m => Members.mem_ofList hsent
    · exact List.Nodup.of_map Prod.fst (Members.nodup_keys (Members.sorted_ofList sent))
    · exact List.Nodup.of_map Prod.fst hsent
  have hbody : (Members.keys ((Members.ofList sent).map fun m =>
      currentMember core m.1 m.2)).Nodup :=
    ((hperm.map _).map Prod.fst).nodup_iff.mpr hnodup
  have hsorted : Members.Sorted restored := by
    have hordered : (Members.keys restored).Pairwise (· < ·) := hkeys ▸ List.pairwise_map.mpr hs
    exact List.pairwise_map.mp hordered
  have hmembers : Members.ofList ((Members.ofList sent).map fun m => currentMember core m.1 m.2) =
      restored := by
    refine Members.ext_mem (Members.sorted_ofList _) hsorted fun m => ?_
    rw [Members.mem_ofList hbody, (hperm.map _).mem_iff]
  have hmap : restored = ms.map fun m =>
      currentMember core (legacyMember m.1 m.2).1 (legacyMember m.1 m.2).2 := List.map_map ..
  rw [← hmap, ← hmembers]
  rfl

/-- A resource in the form of a version and back has the same members, the metadata aside. -/
theorem decode_encode (version : ProtocolVersion) {ms : Members Json} (hs : Members.Sorted ms)
    (hk : ∀ m ∈ ms, MemberName m.1)
    (hschemas : ∀ v, Members.get? ms "schemas" = some v →
      currentMember core "schemas" (legacyMember "schemas" v).2 = ("schemas", v)) :
    ∃ body, version.decode core (version.encode (.obj ms)) = .obj body ∧ Members.Sorted body ∧
      ∀ key, key ≠ "meta" → Members.get? body key = Members.get? ms key := by
  cases version with
  | v2 => exact ⟨ms, rfl, hs, fun _ _ => rfl⟩
  | v1 =>
    have hback : ∀ m ∈ ms, currentKey (legacyKey m.1) = m.1 :=
      fun m hm => currentKey_legacyKey (hk m hm)
    have hsorted : Members.Sorted (ms.map fun m =>
        currentMember core (legacyMember m.1 m.2).1 (legacyMember m.1 m.2).2) := by
      refine List.pairwise_map.mpr (hs.imp_of_mem fun ha hb hlt => ?_)
      rwa [restored_key (hback _ ha), restored_key (hback _ hb)]
    refine ⟨_, decode_encode_members hs hback, hsorted, fun key hmeta => Option.ext fun v => ?_⟩
    rw [Members.get?_eq_some_iff hsorted, Members.get?_eq_some_iff hs]
    have restore {m : String × Json} (hm : m ∈ ms) (hne : m.1 ≠ "meta") :
        currentMember core (legacyMember m.1 m.2).1 (legacyMember m.1 m.2).2 = m := by
      refine currentMember_legacyMember (hback m hm) hne fun hname => hschemas m.2 ?_
      exact Members.get?_of_mem hs (hname ▸ hm)
    rw [List.mem_map]
    constructor
    · rintro ⟨m, hm, heq⟩
      have hname : m.1 = key := (restored_key (hback m hm)).symm.trans (congrArg Prod.fst heq)
      rw [← heq, restore hm (hname ▸ hmeta)]
      exact hm
    · intro hm
      exact ⟨(key, v), hm, restore hm hmeta⟩

end ProtocolVersion

end Roster
