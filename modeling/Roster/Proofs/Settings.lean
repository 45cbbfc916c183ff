import Roster.Projection
import Roster.Proofs.Patch.Canonical
import Roster.Proofs.Patch.Reassign
import Roster.Proofs.Wire
import Roster.Settings.Basic

/-! The registries that settings can give: no extension, or the Enterprise User extension of users,
required or not; and what a client is shown that asks for nothing in particular, which is the whole
resource, unless it holds something that is never shown or an extension that is empty. -/

namespace Roster

/-! ### What is shown unasked -/

/-- The attribute is shown without being asked for, and so is all of its value. -/
def Attribute.isShown (a : Attribute) : Bool :=
  (a.returned == .always || a.returned == .byDefault) &&
    a.subAttributes.all fun sub => sub.returned != .never

namespace Projection

/-- The projection of a request that lists no attributes. -/
def whole : Projection := ⟨none, []⟩

theorem whole_member? {attributes : List Attribute} {key : String}
    (h : ∀ a, findAttribute? attributes key = some a → a.isShown = true)
    (extension : Option String) (v : Json) :
    whole.member? extension attributes key v = some v := by
  unfold member?
  cases hfind : findAttribute? attributes key with
  | none => rfl
  | some a =>
    have hshown := h a hfind
    rw [Attribute.isShown, Bool.and_eq_true] at hshown
    have hvalue : withoutNever a v = v := by rw [withoutNever, if_pos hshown.2]
    cases hr : a.returned with
    | always => simp [hvalue, hr]
    | byDefault => simp [hvalue, hr, whole, leaveOut]
    | never => simp [hr] at hshown
    | onRequest => simp [hr] at hshown

theorem whole_extension? {attributes : List Attribute} {o : Members Json}
    (h : ∀ a ∈ attributes, a.isShown = true) (hne : o ≠ []) (urn : String) :
    whole.extension? urn attributes (.obj o) = some (.obj o) := by
  have hall : o.filterMap (fun m =>
      (whole.member? (some urn) attributes m.1 m.2).map (m.1, ·)) = o := by
    have hid (m : String × Json) :
        (whole.member? (some urn) attributes m.1 m.2).map (m.1, ·) = some m := by
      rw [whole_member? fun a ha => h a (findAttribute?_mem ha)]
      rfl
    simp only [hid, List.filterMap_some]
  have hempty : o.isEmpty = false := List.isEmpty_eq_false_iff.mpr hne
  simp only [extension?, whole, List.any_nil, Bool.false_eq_true, if_false, Option.any_none]
  simp only [whole] at hall
  rw [hall, hempty]
  rfl

/-- A resource is shown as it is, where every attribute that it holds is shown and no extension is
empty. -/
theorem whole_apply {r : Registry} {kind : Kind} {root : Members Json}
    (hext : ∀ m ∈ root, ∀ s, r.extension? kind m.1 = some s →
      (∀ a ∈ s.attributes, a.isShown = true) ∧ ∃ o, m.2 = .obj o ∧ o ≠ [])
    (hattr : ∀ m ∈ root, ∀ a, kind.attribute? m.1 = some a → a.isShown = true) :
    whole.apply r kind (.obj root) = .obj root := by
  refine congrArg Json.obj ((List.filterMap_congr fun m hm => ?_).trans List.filterMap_some)
  split_ifs
  · rfl
  · cases he : r.extension? kind m.1 with
    | some s =>
      obtain ⟨hshown, o, ho, hne⟩ := hext m hm s he
      obtain ⟨key, v⟩ := m
      obtain rfl : v = .obj o := ho
      simp [whole_extension? hshown hne]
    | none => simp [whole_member? fun a ha => hattr m hm a ha]

end Projection

/-! ### The Enterprise User extension -/

/-- The identifier of the extension is a URN that can be read as a path, and is not that of a core
schema. -/
theorem enterpriseUser_named :
    (isUrn Schema.enterpriseUser.id = true ∧
      Schema.enterpriseUser.id.toList.all Expression.isLeadChar = true ∧
      utf8Length Schema.enterpriseUser.id.toList ≤ Filter.greatestLength) ∧
    ∀ kind ∈ [Kind.user, Kind.group],
      sameName Schema.enterpriseUser.id kind.coreSchema.id = false := by
  decide

/-- Its attributes spell `primary` as it is defined, and are all shown. -/
theorem enterpriseUser_attributes : ∀ a ∈ Schema.enterpriseUser.attributes,
    a.spellsPrimary = true ∧ a.isShown = true := by
  decide

namespace ProtocolSettings

variable {kind : Kind} {s : Schema}

theorem registry_cases (p : ProtocolSettings) : p.registry = .core ∨
    ∃ required, p.registry = Registry.core.extend ⟨.user, Schema.enterpriseUser, required⟩ := by
  unfold registry
  split_ifs
  · exact .inr ⟨_, rfl⟩
  · exact .inl rfl

theorem registry_extension (p : ProtocolSettings) {e : Extension} (h : e ∈ p.registry.extensions) :
    e.kind = .user ∧ e.schema = Schema.enterpriseUser := by
  rcases p.registry_cases with hr | ⟨required, hr⟩
  · simp [hr, Registry.core] at h
  · obtain rfl : e = ⟨.user, Schema.enterpriseUser, required⟩ := by
      simpa [hr, Registry.core, Registry.extend] using h
    exact ⟨rfl, rfl⟩

/-- The extension that settings can make known is the Enterprise User. -/
theorem registered_eq (p : ProtocolSettings) (h : Registered p.registry kind s) :
    s = Schema.enterpriseUser := by
  obtain ⟨urn, hs, -⟩ := h
  obtain ⟨e, he, rfl, -⟩ := Registry.extension?_some hs
  exact (p.registry_extension (List.mem_of_mem_filter he)).2

theorem registry_wellNamed (p : ProtocolSettings) : p.registry.WellNamed where
  urns e he := by
    obtain ⟨⟨hurn, -⟩, -⟩ := enterpriseUser_named
    rw [(p.registry_extension he).2]
    exact hurn
  primary e he := by
    rw [(p.registry_extension he).2]
    exact fun a ha => (enterpriseUser_attributes a ha).1

theorem registry_single (p : ProtocolSettings) (kind : Kind) : p.registry.Single kind where
  unique s t hs ht := (p.registered_eq ht).trans (p.registered_eq hs).symm
  other s hs := by
    obtain ⟨-, hother⟩ := enterpriseUser_named
    rw [p.registered_eq hs]
    exact hother kind (by cases kind <;> simp)

theorem registry_addressable (p : ProtocolSettings) (kind : Kind) :
    p.registry.Addressable kind where
  toSingle := p.registry_single kind
  lead s hs := by
    obtain ⟨⟨-, hlead, -⟩, -⟩ := enterpriseUser_named
    rw [p.registered_eq hs]
    exact hlead
  length s hs := by
    obtain ⟨⟨-, -, hlength⟩, -⟩ := enterpriseUser_named
    rw [p.registered_eq hs]
    exact hlength

/-- The names of members of a resource are those that the versions of the protocol can carry. -/
theorem memberName_named (p : ProtocolSettings) {key : String} (h : Named p.registry kind key) :
    ProtocolVersion.MemberName key := by
  cases h with
  | schemas => exact .inl (by decide)
  | defined ha => exact .inl (attributes_not_urn kind _ ha)
  | registered hs =>
    rw [p.registered_eq hs]
    exact .inr rfl

end ProtocolSettings

/-! ### Shown attributes -/

/-- All attributes of a kind are shown without being asked for, but for the password. -/
theorem attributes_shown (kind : Kind) : ∀ a ∈ kind.attributes, a.name ≠ "password" →
    a.isShown = true := by
  cases kind <;> decide

end Roster
