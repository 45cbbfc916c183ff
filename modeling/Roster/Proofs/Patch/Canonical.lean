import Roster.Proofs.Members.Order
import Roster.Proofs.Patch.Conformance
import Roster.Proofs.Patch.Untouched

/-! Canonical resources: every member stands in the order of the names, under the spelling of its
definition, and with a checked value. Modifications leave canonical resources. -/

namespace Roster

/-! ### Names in their defined spelling -/

/-- The names of the members of a resource: that of its list of schemas, those of attributes as
their definitions spell them, and the identifiers of extensions. -/
inductive Named (r : Registry) (kind : Kind) : String → Prop where
  | schemas : Named r kind "schemas"
  | defined {a : Attribute} (mem : a ∈ kind.attributes) : Named r kind a.name
  | registered {s : Schema} (known : Registered r kind s) : Named r kind s.id

theorem attributes_spelled (kind : Kind) :
    ∀ a ∈ kind.attributes, ∀ b ∈ kind.attributes, sameName a.name b.name = true →
      b.name = a.name := by
  cases kind <;> decide

/-- Extensions of one identifier, letter case aside, are the same. -/
theorem registered_unique {r : Registry} {kind : Kind} {s t : Schema} (hs : Registered r kind s)
    (ht : Registered r kind t) (h : sameName s.id t.id = true) : t = s := by
  have hfirst := registered_extension? hs h
  rw [registered_extension? ht (sameName_refl _)] at hfirst
  exact Option.some.inj hfirst

namespace Named

variable {r : Registry} {kind : Kind} {name key : String}

/-- An identifier of an extension is no other name of a member. -/
theorem extension_ne {s : Schema} (hs : Registered r kind s) (h : isUrn name = false) :
    sameName name s.id = false ∧ sameName s.id name = false := by
  rw [sameName_comm s.id name]
  exact ⟨extension_not_same hs h, extension_not_same hs h⟩

/-- No two names of members are the same but for letter case. -/
theorem spelled (hn : Named r kind name) (hk : Named r kind key)
    (h : sameName name key = true) : key = name := by
  have hschemas : isUrn "schemas" = false := by decide
  cases hn with
  | schemas =>
    cases hk with
    | schemas => rfl
    | defined ha => simp [sameName_comm "schemas", schemas_not_attribute kind _ ha] at h
    | registered hs => simp [extension_ne hs hschemas] at h
  | defined ha =>
    cases hk with
    | schemas => simp [schemas_not_attribute kind _ ha] at h
    | defined hb => exact attributes_spelled kind _ ha _ hb h
    | registered hs => simp [extension_ne hs (attributes_not_urn kind _ ha)] at h
  | registered hs =>
    cases hk with
    | schemas => simp [extension_ne hs hschemas] at h
    | defined hb => simp [extension_ne hs (attributes_not_urn kind _ hb)] at h
    | registered ht => rw [registered_unique hs ht h]

end Named

/-! ### Canonical members -/

/-- A member as changes leave it: the list of schemas, what the server assigns, a checked value of
an attribute that clients may write, or a checked object of an extension. -/
inductive Fits (r : Registry) (kind : Kind) : String × Json → Prop where
  | schemas (items : List Json) : Fits r kind ("schemas", .arr items)
  | assigned {key : String} (v : Json) (mem : key ∈ ["id", "meta"]) : Fits r kind (key, v)
  | defined {a : Attribute} {v : Json} (writable : Defined kind.attributes a)
      (checked : checkValue a v = .ok v) : Fits r kind (a.name, v)
  | registered {s : Schema} {o : Members Json} (known : Registered r kind s)
      (checked : CheckedObject s.attributes o) : Fits r kind (s.id, .obj o)

/-- Members in order that all fit. -/
structure Canonical (r : Registry) (kind : Kind) (root : Members Json) : Prop where
  sorted : Members.Sorted root
  fits : ∀ m ∈ root, Fits r kind m

/-- What the server assigns has the names of read-only attributes. -/
theorem assigned_attribute (kind : Kind) : ∀ key ∈ ["id", "meta"],
    ∃ a ∈ kind.attributes, a.name = key ∧ kind.isReadOnly key = true := by
  cases kind <;> decide

/-- Neither the list of schemas nor an extension has the name of a read-only attribute. -/
theorem schemas_not_readOnly (kind : Kind) : kind.isReadOnly "schemas" = false := by
  cases kind <;> decide

theorem registered_not_readOnly {r : Registry} {kind : Kind} {s : Schema}
    (hs : Registered r kind s) : kind.isReadOnly s.id = false := by
  cases hro : kind.isReadOnly s.id with
  | false => rfl
  | true =>
    obtain ⟨b, hb, -⟩ := (Option.any_eq_true _ _).mp hro
    have hsame : sameName b.name s.id = true := findAttribute?_sameName hb
    rw [(Named.extension_ne hs (attributes_not_urn kind b (findAttribute?_mem hb))).1] at hsame
    cases hsame

namespace Fits

variable {r : Registry} {kind : Kind} {m : String × Json}

theorem named (h : Fits r kind m) : Named r kind m.1 := by
  cases h with
  | schemas => exact .schemas
  | assigned v hk =>
    obtain ⟨a, ha, rfl, -⟩ := assigned_attribute kind _ hk
    exact .defined ha
  | defined hd => exact .defined (findAttribute?_mem hd.found)
  | registered hs => exact .registered hs

/-- A member under the name of a writable attribute has a checked value. -/
theorem value (h : Fits r kind m) {a : Attribute} (hd : Defined kind.attributes a)
    (hm : m.1 = a.name) : checkValue a m.2 = .ok m.2 := by
  have ha := findAttribute?_mem hd.found
  cases h with
  | schemas =>
    have hs := schemas_not_attribute kind a ha
    rw [← hm] at hs
    simp at hs
  | @assigned key v hk =>
    obtain rfl : key = a.name := hm
    obtain ⟨-, -, -, hro⟩ := assigned_attribute kind _ hk
    simp [Kind.isReadOnly, Kind.attribute?, hd.found, hd.writable] at hro
  | @defined b v hb hv =>
    have hname : b.name = a.name := hm
    have hab := hb.found
    rw [hname, hd.found] at hab
    exact Option.some.inj hab ▸ hv
  | registered hs _ =>
    have hurn := attributes_not_urn kind a ha
    rw [← hm, registered_isUrn hs] at hurn
    cases hurn

/-- A member under the identifier of an extension is a checked object. -/
theorem object (h : Fits r kind m) {s : Schema} (hs : Registered r kind s) (hm : m.1 = s.id) :
    ∃ o, m.2 = .obj o ∧ CheckedObject s.attributes o := by
  have hurn := registered_isUrn hs
  rw [← hm] at hurn
  cases h with
  | schemas =>
    have hnot : isUrn "schemas" = false := by decide
    rw [hnot] at hurn
    cases hurn
  | assigned v hk =>
    obtain ⟨a, ha, hname, -⟩ := assigned_attribute kind _ hk
    rw [← hname, attributes_not_urn kind a ha] at hurn
    cases hurn
  | defined hb _ =>
    rw [attributes_not_urn kind _ (findAttribute?_mem hb.found)] at hurn
    cases hurn
  | registered ht ho =>
    obtain rfl := registered_unique hs ht (hm ▸ sameName_refl _)
    exact ⟨_, rfl, ho⟩

end Fits

namespace Canonical

variable {r : Registry} {kind : Kind} {root : Members Json} {name key : String} {v : Json}

theorem insert (h : Canonical r kind root) (hm : Fits r kind (key, v)) :
    Canonical r kind (root.insert key v) :=
  ⟨Members.sorted_insert key v h.sorted, Members.forall_insert h.fits hm⟩

theorem erase (h : Canonical r kind root) (key : String) : Canonical r kind (root.erase key) :=
  ⟨Members.sorted_erase key h.sorted, Members.forall_erase key h.fits⟩

/-- A name of a member is held in its own spelling only. -/
theorem spelled (h : Canonical r kind root) (hn : Named r kind name) :
    ∀ k ∈ Members.keys root, sameName name k = true → k = name := by
  intro k hk hs
  obtain ⟨m, hm, rfl⟩ := List.mem_map.mp hk
  exact hn.spelled (h.fits m hm).named hs

theorem set (h : Canonical r kind root) (hn : Named r kind name) (v : Json) :
    Members.set root name v = Members.insert root name v :=
  Members.set_eq_insert (h.spelled hn) v

theorem putHeld (h : Canonical r kind root) (hn : Named r kind name) (v : Json) :
    Members.putHeld root name v = Members.insert root name v := by
  rw [Members.putHeld, Members.heldKey_eq_self (h.spelled hn)]

theorem remove (h : Canonical r kind root) (hn : Named r kind name) :
    Members.remove root name = Members.erase root name :=
  Members.remove_eq_erase (h.spelled hn)

theorem find? (h : Canonical r kind root) (hn : Named r kind name) :
    Members.find? root name = Members.get? root name :=
  Members.find?_eq_get? (h.spelled hn)

theorem value (h : Canonical r kind root) {a : Attribute} (hd : Defined kind.attributes a)
    (hv : Members.get? root a.name = some v) : checkValue a v = .ok v :=
  (h.fits _ (Members.mem_of_get? hv)).value hd rfl

theorem object (h : Canonical r kind root) {s : Schema} (hs : Registered r kind s)
    (hv : Members.get? root s.id = some v) : ∃ o, v = .obj o ∧ CheckedObject s.attributes o :=
  (h.fits _ (Members.mem_of_get? hv)).object hs rfl

end Canonical

/-! ### Modifications -/

variable {r : Registry} {kind : Kind}

theorem Defined.named {a : Attribute} (hd : Defined kind.attributes a) : Named r kind a.name :=
  .defined (findAttribute?_mem hd.found)

/-- A value that is put in a canonical resource is put under its own name. -/
theorem canonical_holder (r : Registry) (kind : Kind) :
    HolderRule kind.attributes False (fun a v => checkValue a v = .ok v) (Canonical r kind) where
  value hd := checkedValue_rule (attributes_spellPrimary kind _ (findAttribute?_mem hd.found))
  found h hd hf := h.value hd (h.find? hd.named ▸ hf)
  set h hd hv := by
    rw [h.set hd.named]
    exact h.insert (.defined hd hv)
  putHeld h hd hv := by
    rw [h.putHeld hd.named]
    exact h.insert (.defined hd hv)
  remove h hd _ := by
    rw [h.remove hd.named]
    exact h.erase _

theorem canonical_rule (hw : r.WellNamed) :
    PatchRule r kind False (fun a v => checkValue a v = .ok v)
      (fun a v => checkValue a v = .ok v) CheckedObject (Canonical r kind) where
  root := canonical_holder r kind
  inner := (Registry.conforming_rule hw).inner
  empty := (Registry.conforming_rule hw).empty
  object := (Registry.conforming_rule hw).object
  innerObject := (Registry.conforming_rule hw).innerObject
  checked := (Registry.conforming_rule hw).checked
  merged := (Registry.conforming_rule hw).merged
  extension h hs hf := by
    rw [h.find? (.registered hs)] at hf
    obtain ⟨o, ho, hc⟩ := h.object hs hf
    cases ho
    exact hc
  setExtension h hs ho := by
    rw [h.set (.registered hs)]
    exact h.insert (.registered hs ho)
  putExtension h hs ho := by
    rw [h.putHeld (.registered hs)]
    exact h.insert (.registered hs ho)
  removeExtension h hs := by
    rw [h.remove (.registered hs)]
    exact h.erase _
  schemas h := by
    rw [h.putHeld .schemas]
    exact h.insert (.schemas _)

end Roster
