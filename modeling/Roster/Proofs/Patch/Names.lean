import Roster.Proofs.Patch.Keeping

/-! Names of attributes and extensions: how `primary` is spelled among them, and that at the top of
a resource attributes, extensions and the list of schemas never share a name. -/

namespace Roster

/-! ### Spellings of `primary` -/

mutual

/-- Every sub-attribute, at any depth, that is named `primary` but for letter case is spelled so. -/
def Attribute.spellsPrimary (a : Attribute) : Bool :=
  match a with
  | ⟨_, _, _, _, _, _, _, _, _, subAttributes⟩ => allSpellPrimary subAttributes

def allSpellPrimary (attributes : List Attribute) : Bool :=
  match attributes with
  | [] => true
  | sub :: rest =>
    (!sameName sub.name "primary" || sub.name == "primary") && sub.spellsPrimary &&
      allSpellPrimary rest

end

theorem allSpellPrimary_mem {attributes : List Attribute} (h : allSpellPrimary attributes = true)
    {sub : Attribute} (hs : sub ∈ attributes) :
    (sameName sub.name "primary" = true → sub.name = "primary") ∧ sub.spellsPrimary = true := by
  induction attributes with
  | nil => simp at hs
  | cons head rest ih =>
    simp only [allSpellPrimary, Bool.and_eq_true, Bool.or_eq_true, Bool.not_eq_true',
      beq_iff_eq] at h
    obtain ⟨⟨hname, hhead⟩, hrest⟩ := h
    rcases List.mem_cons.mp hs with rfl | hs
    · exact ⟨fun hsame => hname.resolve_left (by simp [hsame]), hhead⟩
    · exact ih hrest hs

theorem spellsPrimary_sub {a sub : Attribute} (h : a.spellsPrimary = true)
    (hs : sub ∈ a.subAttributes) :
    (sameName sub.name "primary" = true → sub.name = "primary") ∧ sub.spellsPrimary = true := by
  cases a with
  | mk name type multiValued description required caseExact mutability returned uniqueness subs =>
    rw [Attribute.spellsPrimary] at h
    exact allSpellPrimary_mem h hs

/-! ### Names at the top of a resource -/

theorem registered_isUrn {r : Registry} {kind : Kind} {s : Schema} (h : Registered r kind s) :
    isUrn s.id = true := by
  obtain ⟨urn, hs, hu⟩ := h
  obtain ⟨-, -, -, hname⟩ := Registry.extension?_some hs
  rw [isUrn_congr hname, hu]

/-- Every spelling of the identifier of an extension names it. -/
theorem registered_extension? {r : Registry} {kind : Kind} {s : Schema} (h : Registered r kind s)
    {key : String} (hk : sameName s.id key = true) : r.extension? kind key = some s := by
  obtain ⟨urn, hs, -⟩ := h
  obtain ⟨e, he, rfl⟩ := Option.map_eq_some_iff.mp hs
  have hp := List.find?_some he
  simp only [Bool.and_eq_true] at hp
  have hsame : (fun e : Extension => e.kind == kind && sameName e.schema.id urn) =
      fun e => e.kind == kind && sameName e.schema.id key := by
    funext x
    rw [Bool.eq_iff_iff, Bool.and_eq_true, Bool.and_eq_true, sameName_iff, sameName_iff,
      ← sameName_iff.mp hp.2, sameName_iff.mp hk]
  unfold Registry.extension?
  rw [← hsame, he]
  rfl

theorem attributes_spellPrimary (kind : Kind) :
    ∀ a ∈ kind.attributes, a.spellsPrimary = true := by
  cases kind <;> decide

theorem attributes_not_urn (kind : Kind) : ∀ a ∈ kind.attributes, isUrn a.name = false := by
  cases kind <;> decide

theorem schemas_not_attribute (kind : Kind) :
    ∀ a ∈ kind.attributes, sameName a.name "schemas" = false := by
  cases kind <;> decide

theorem extension_not_same {r : Registry} {kind : Kind} {s : Schema} (h : Registered r kind s)
    {key : String} (hk : isUrn key = false) : sameName key s.id = false := by
  rw [Bool.eq_false_iff]
  intro hs
  rw [isUrn_congr hs, registered_isUrn h] at hk
  cases hk

/-- The list of schemas is no extension. -/
theorem registered_not_schemas {r : Registry} {kind : Kind} {e : Schema}
    (he : Registered r kind e) :
    sameName e.id "schemas" = false ∧ sameName "schemas" e.id = false := by
  have hurn : isUrn "schemas" = false := by decide
  rw [sameName_comm e.id]
  exact ⟨extension_not_same he hurn, extension_not_same he hurn⟩

/-! ### Required attributes -/

/-- The required attributes of a kind are singular and can be written. -/
theorem required_found (kind : Kind) : ∀ a ∈ kind.coreSchema.attributes, a.required = true →
    ∃ b, findAttribute? kind.attributes a.name = some b ∧ b.required = true ∧
      b.multiValued = false ∧ b.isReadOnly = false := by
  have h : ∀ a ∈ kind.coreSchema.attributes, a.required = true →
      (findAttribute? kind.attributes a.name).any
        (fun b => b.required && !b.multiValued && !b.isReadOnly) = true := by
    cases kind <;> decide
  intro a ha hr
  obtain ⟨b, hb, hp⟩ := Option.any_eq_true _ _ |>.mp (h a ha hr)
  exact ⟨b, hb, by simpa [and_assoc] using hp⟩

/-- A required attribute has another name than one that may be removed. -/
theorem required_not_same {kind : Kind} {a b : Attribute} (ha : a ∈ kind.coreSchema.attributes)
    (hr : a.required = true) (hd : Defined kind.attributes b)
    (hb : b.required = false ∨ b.multiValued = true) : sameName a.name b.name = false := by
  rw [Bool.eq_false_iff]
  intro hs
  obtain ⟨c, hc, hreq, hsingular, -⟩ := required_found kind a ha hr
  rw [findAttribute?_congr _ hs, hd.found] at hc
  cases hc
  simp [hreq, hsingular] at hb

end Roster
