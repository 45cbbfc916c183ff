import Roster.Proofs.Json
import Roster.Proofs.Patch.Names

/-! Conformance of resources to their schemas, and that no modification breaks it: every value is
left as its definition checks it, and no required attribute is lost. -/

namespace Roster

/-- Extensions have URNs for identifiers, and spell `primary` in one way. -/
structure Registry.WellNamed (r : Registry) : Prop where
  urns : ∀ e ∈ r.extensions, isUrn e.schema.id = true
  primary : ∀ e ∈ r.extensions, ∀ a ∈ e.schema.attributes, a.spellsPrimary = true

/-- The members of a resource conform to the schemas of its kind: writable attributes hold checked
values, extensions hold checked objects, and the required attributes are there. -/
structure Registry.Conforming (r : Registry) (kind : Kind) (root : Members Json) : Prop where
  attributes : ∀ m ∈ root, ∀ a, kind.attribute? m.1 = some a → a.isReadOnly = false →
    checkValue a m.2 = .ok m.2
  extensions : ∀ m ∈ root, ∀ s, r.extension? kind m.1 = some s →
    ∃ o, m.2 = .obj o ∧ checkMembers s.id s.attributes (.obj o) = .ok o
  required : ∀ a ∈ kind.coreSchema.attributes, a.required = true →
    ∃ v, Members.find? root a.name = some v ∧ v.isNull = false

/-- Whether members conform, said of each member. -/
theorem Registry.conforming_iff {r : Registry} {kind : Kind} {root : Members Json} :
    r.Conforming kind root ↔
      (root.all fun m =>
        ((kind.attribute? m.1).all fun a =>
          a.isReadOnly || decide (checkValue a m.2 = .ok m.2)) &&
        (r.extension? kind m.1).all fun s =>
          decide (checkMembers s.id s.attributes m.2 = .ok m.2.root)) = true ∧
      (kind.coreSchema.attributes.all fun a => !a.required ||
        (Members.find? root a.name).any fun v => !v.isNull) = true := by
  simp only [List.all_eq_true, Bool.and_eq_true, Option.all_eq_true, Bool.or_eq_true,
    decide_eq_true_eq, Bool.not_eq_true', Option.any_eq_true]
  constructor
  · intro h
    refine ⟨fun m hm => ⟨fun a ha => ?_, fun s hs => ?_⟩, fun a ha => ?_⟩
    · cases hro : a.isReadOnly with
      | true => exact .inl rfl
      | false => exact .inr (h.attributes m hm a ha hro)
    · obtain ⟨o, ho, hc⟩ := h.extensions m hm s hs
      rw [ho]
      exact hc
    · cases hr : a.required with
      | true => exact .inr (h.required a ha hr)
      | false => exact .inl rfl
  · rintro ⟨hm, hr⟩
    refine ⟨fun m hm' a ha hro => ?_, fun m hm' s hs => ?_, fun a ha hreq => ?_⟩
    · exact ((hm m hm').1 a ha).resolve_left (by simp [hro])
    · have hc := (hm m hm').2 s hs
      cases hv : m.2 with
      | obj o => exact ⟨o, rfl, by simpa [hv, Json.root, Json.members?] using hc⟩
      | _ => simp [hv, checkMembers] at hc
    · exact (hr a ha).resolve_left (by simp [hreq])

instance (r : Registry) (kind : Kind) (root : Members Json) : Decidable (r.Conforming kind root) :=
  decidable_of_iff _ Registry.conforming_iff.symm

/-! ### Checked objects under edits -/

namespace CheckedObject

variable {definitions : List Attribute} {ms : Members Json} {a : Attribute}

theorem nil : CheckedObject definitions [] :=
  ⟨by simp, List.Pairwise.nil⟩

theorem member (hd : Defined definitions a) {v : Json} (hv : checkValue a v = .ok v) :
    CheckedMember definitions (a.name, v) :=
  ⟨⟨a, hd.found, rfl, hd.writable, hv⟩, checkValue_not_null hv⟩

/-- A spelling of a defined name in a checked object is the defined one, with a checked value. -/
theorem canonical (h : CheckedObject definitions ms) (hd : Defined definitions a) {key : String}
    {v : Json} (hm : (key, v) ∈ ms) (hs : sameName a.name key = true) :
    key = a.name ∧ checkValue a v = .ok v := by
  obtain ⟨b, hb, hname, -, hv⟩ := (h.checked _ hm).checked
  have hab : some a = some b := by
    rw [← hd.found, findAttribute?_congr definitions hs, hb]
  obtain rfl := Option.some.inj hab
  exact ⟨hname.symm, hv⟩

theorem insert (h : CheckedObject definitions ms) {key : String} {v : Json}
    (hm : CheckedMember definitions (key, v)) : CheckedObject definitions (ms.insert key v) :=
  ⟨Members.forall_insert h.checked hm, Members.sorted_insert _ _ h.sorted⟩

theorem erase (h : CheckedObject definitions ms) (key : String) :
    CheckedObject definitions (ms.erase key) :=
  ⟨Members.forall_erase key h.checked, Members.sorted_erase key h.sorted⟩

theorem set (h : CheckedObject definitions ms) {key : String} {v : Json}
    (hm : CheckedMember definitions (key, v)) : CheckedObject definitions (ms.set key v) := by
  unfold Members.set
  split
  · split_ifs
    · exact h.insert hm
    · exact (h.erase _).insert hm
  · exact h.insert hm

theorem remove (h : CheckedObject definitions ms) (name : String) :
    CheckedObject definitions (ms.remove name) := by
  unfold Members.remove
  split
  · exact h.erase _
  · exact h

theorem setAll (h : CheckedObject definitions ms) {incoming : Members Json}
    (hi : ∀ m ∈ incoming, CheckedMember definitions m) :
    CheckedObject definitions (ms.setAll incoming) := by
  unfold Members.setAll
  induction incoming generalizing ms with
  | nil => exact h
  | cons m rest ih =>
    obtain ⟨hm, hrest⟩ := List.forall_mem_cons.mp hi
    exact ih (h.set hm) hrest

/-- A defined name is held under its own spelling. -/
theorem heldKey (h : CheckedObject definitions ms) (hd : Defined definitions a) :
    (Members.key? ms a.name).getD a.name = a.name := by
  cases hk : Members.key? ms a.name with
  | none => rfl
  | some key =>
    obtain ⟨m, hm, rfl⟩ := List.mem_map.mp (Members.key?_mem hk)
    exact (h.canonical hd hm (Members.key?_sameName hk)).1

end CheckedObject

/-! ### Checked elements under edits -/

theorem checkValue_bool {a : Attribute} {b : Bool} (h : checkValue a (.bool b) = .ok (.bool b))
    (c : Bool) : checkValue a (.bool c) = .ok (.bool c) := by
  unfold checkValue at h ⊢
  split_ifs at h ⊢ with hm
  · obtain ⟨items, -, h⟩ := map_eq_ok.mp h
    cases h
  · rw [checkSingle_of_not_object rfl, guard_eq_ok, checkScalar_eq_ok] at h
    rw [checkSingle_of_not_object rfl, guard_eq_ok, checkScalar_eq_ok]
    refine ⟨h.1, ?_⟩
    cases ht : a.type <;> simp_all [AttributeType.admit?, Json.string?, Json.number?]

/-- A primary element that is checked holds true under the name `primary` itself. -/
theorem primary_defined {definitions : List Attribute} {ms : Members Json}
    (hspell : ∀ sub ∈ definitions, sameName sub.name "primary" = true → sub.name = "primary")
    (h : CheckedObject definitions ms) (hp : Json.isPrimary (.obj ms) = true) :
    ∃ sub, Defined definitions sub ∧ sub.name = "primary" ∧
      checkValue sub (.bool true) = .ok (.bool true) := by
  obtain ⟨v, hfind, hv⟩ := Option.bind_eq_some_iff.mp
    (show (Members.find? ms "primary").bind Json.bool? = some true by
      simpa [Json.isPrimary, Json.member?, Json.members?] using hp)
  obtain rfl : v = .bool true := by
    cases v <;> simp_all [Json.bool?]
  obtain ⟨key, hsame, hm⟩ := Members.mem_of_find? hfind
  obtain ⟨sub, hsub, hname, hro, hc⟩ := (h.checked _ hm).checked
  have hprimary : sub.name = "primary" := by
    refine hspell sub (findAttribute?_mem hsub) ?_
    rw [hname, sameName_comm]
    exact hsame
  exact ⟨sub, ⟨findAttribute?_name hsub, hro⟩, hprimary, hc⟩

/-- The edits of an element leave what its definition checks. -/
theorem checkedElement_rule {a : Attribute} (hspell : a.spellsPrimary = true) :
    ElementRule a fun v => checkSingle a v = .ok v where
  checked h := checkSingle_checked _ h
  demoted {v} h := by
    cases v with
    | obj ms =>
      obtain ⟨hc, hobj⟩ := checkSingle_obj_self_iff.mp h
      simp only [Json.demoted]
      split_ifs with hp
      · obtain ⟨sub, hd, hname, htrue⟩ :=
          primary_defined (fun sub hs => (spellsPrimary_sub hspell hs).1) hobj hp
        refine checkSingle_obj_self_iff.mpr ⟨hc, hobj.set ?_⟩
        exact hname ▸ CheckedObject.member hd (checkValue_bool htrue false)
      · exact h
    | _ => exact h
  assign {v w x new sub} h hd hnew hw := by
    cases v with
    | obj ms =>
      obtain ⟨hc, hobj⟩ := checkSingle_obj_self_iff.mp h
      obtain ⟨members, hm, rfl⟩ := map_eq_ok.mp hw
      obtain ⟨-, -, hm⟩ := bind_eq_ok.mp hm
      cases hm
      refine checkSingle_obj_self_iff.mpr ⟨hc, hobj.set ?_⟩
      exact CheckedObject.member hd (checkValue_checked hnew)
    | null => simpa [Json.isNull] using checkSingle_not_null h
    | _ => simp [setSub, Json.editObject] at hw
  merge {v w x incoming} h hi hw := by
    cases v with
    | obj ms =>
      obtain ⟨hc, hobj⟩ := checkSingle_obj_self_iff.mp h
      obtain rfl : Json.obj (Members.setAll ms incoming) = w := by
        simpa [Json.editObject, Except.map] using hw
      exact checkSingle_obj_self_iff.mpr ⟨hc, hobj.setAll (checkMembers_checked hi).checked⟩
    | null => simpa [Json.isNull] using checkSingle_not_null h
    | _ => simp [Json.editObject] at hw
  drop {v w sub} h hd hw := by
    cases v with
    | obj ms =>
      obtain ⟨hc, hobj⟩ := checkSingle_obj_self_iff.mp h
      rw [dropSub, guard_eq_ok] at hw
      cases hw.2
      exact checkSingle_obj_self_iff.mpr ⟨hc, hobj.remove _⟩
    | _ =>
      cases hw
      exact h

theorem checkedValue_rule {a : Attribute} (hspell : a.spellsPrimary = true) :
    ValueRule a False fun v => checkValue a v = .ok v where
  listed hm := by
    have hiff (items : List Json) : checkValue a (.arr items) = .ok (.arr items) ↔
        ∀ v ∈ items, checkSingle a v = .ok v := by
      rw [checkValue_list_self_iff hm]
      exact ⟨fun ⟨_, h, hi⟩ => Json.arr.inj h ▸ hi, fun hi => ⟨items, rfl, hi⟩⟩
    simpa only [hiff] using (checkedElement_rule hspell).listRule False
  checked hm h := by
    rw [checkValue_singular hm]
    exact checkSingle_checked _ h
  merged hm hc hheld hi := by
    rw [checkValue_singular hm] at hheld ⊢
    refine checkSingle_obj_self_iff.mpr ⟨hc, ?_⟩
    refine CheckedObject.setAll ?_ (checkMembers_checked hi).checked
    rcases hheld with h | rfl
    · exact (checkSingle_obj_self_iff.mp h).2
    · exact CheckedObject.nil

/-! ### Checked objects and conforming resources under edits -/

theorem checkedObject_rule {definitions : List Attribute}
    (hspell : ∀ a ∈ definitions, a.spellsPrimary = true) :
    HolderRule definitions False (fun a v => checkValue a v = .ok v)
      (CheckedObject definitions) where
  value hd := checkedValue_rule (hspell _ (findAttribute?_mem hd.found))
  found h hd hf := by
    obtain ⟨key, hs, hm⟩ := Members.mem_of_find? hf
    exact (h.canonical hd hm hs).2
  set h hd hv := h.set (CheckedObject.member hd hv)
  putHeld h hd hv := by
    rw [Members.putHeld, h.heldKey hd]
    exact h.insert (CheckedObject.member hd hv)
  remove h _ _ := h.remove _

/-! ### The members of a conforming resource -/

/-- What conformance says of a single member. -/
def ConformingMember (r : Registry) (kind : Kind) (m : String × Json) : Prop :=
  (∀ a, kind.attribute? m.1 = some a → a.isReadOnly = false → checkValue a m.2 = .ok m.2) ∧
    ∀ s, r.extension? kind m.1 = some s →
      ∃ o, m.2 = .obj o ∧ checkMembers s.id s.attributes (.obj o) = .ok o

namespace Registry

variable {r : Registry} {kind : Kind} {root : Members Json}

theorem Conforming.member (h : r.Conforming kind root) : ∀ m ∈ root, ConformingMember r kind m :=
  fun m hm => ⟨h.attributes m hm, h.extensions m hm⟩

/-- Members that conform one by one conform together when the required ones are among them. -/
theorem conforming_of_members (hm : ∀ m ∈ root, ConformingMember r kind m)
    (hr : ∀ a ∈ kind.coreSchema.attributes, a.required = true →
      (Members.find? root a.name).isSome = true) : r.Conforming kind root where
  attributes m hm' := (hm m hm').1
  extensions m hm' := (hm m hm').2
  required a ha hreq := by
    obtain ⟨v, hv⟩ := Option.isSome_iff_exists.mp (hr a ha hreq)
    obtain ⟨b, hb, -, -, hro⟩ := required_found kind a ha hreq
    obtain ⟨key, hs, hmem⟩ := Members.mem_of_find? hv
    refine ⟨v, hv, checkValue_not_null ((hm _ hmem).1 b ?_ hro)⟩
    rw [Kind.attribute?, ← findAttribute?_congr _ hs, hb]

theorem Conforming.found (h : r.Conforming kind root) {a : Attribute}
    (ha : a ∈ kind.coreSchema.attributes) (hr : a.required = true) :
    (Members.find? root a.name).isSome = true := by
  obtain ⟨v, hv, -⟩ := h.required a ha hr
  simp [hv]

theorem extension?_isUrn (hw : r.WellNamed) {key : String} {s : Schema}
    (h : r.extension? kind key = some s) : isUrn key = true := by
  obtain ⟨e, he, rfl, hname⟩ := Registry.extension?_some h
  rw [← isUrn_congr hname]
  exact hw.urns e (List.mem_of_mem_filter he)

/-- A checked value conforms under every spelling of its attribute. -/
theorem conformingMember_attribute (hw : r.WellNamed) {a : Attribute}
    (hd : Defined kind.attributes a) {v : Json} (hv : checkValue a v = .ok v) {key : String}
    (hk : sameName a.name key = true) : ConformingMember r kind (key, v) := by
  refine ⟨fun b hb _ => ?_, fun s hs => ?_⟩
  · have hab : some a = some b := by
      rw [← hd.found, findAttribute?_congr _ hk, ← hb]
      rfl
    exact Option.some.inj hab ▸ hv
  · -- no attribute is spelled like a URN
    have hurn := extension?_isUrn hw hs
    rw [← isUrn_congr hk, attributes_not_urn kind a (findAttribute?_mem hd.found)] at hurn
    simp at hurn

/-- A checked object conforms under every spelling of its extension. -/
theorem conformingMember_extension {s : Schema} (hs : Registered r kind s) {o : Members Json}
    (ho : CheckedObject s.attributes o) {key : String} (hk : sameName s.id key = true) :
    ConformingMember r kind (key, .obj o) := by
  refine ⟨fun a ha _ => ?_, fun s' hs' => ?_⟩
  · have hurn : isUrn a.name = true := by
      rw [isUrn_congr (findAttribute?_sameName ha), ← isUrn_congr hk, registered_isUrn hs]
    simp [attributes_not_urn kind a (findAttribute?_mem ha)] at hurn
  · rw [registered_extension? hs hk] at hs'
    cases hs'
    exact ⟨o, rfl, checkMembers_eq_self_iff.mpr ho⟩

/-- The list of schemas is neither an attribute nor an extension. -/
theorem conformingMember_schemas (hw : r.WellNamed) {key : String} {v : Json}
    (hk : sameName "schemas" key = true) : ConformingMember r kind (key, v) := by
  refine ⟨fun a ha _ => ?_, fun s hs => ?_⟩
  · have hsame := sameName_trans (findAttribute?_sameName ha) (sameName_comm _ _ ▸ hk)
    simp [schemas_not_attribute kind a (findAttribute?_mem ha)] at hsame
  · have hurn := extension?_isUrn hw hs
    rw [← isUrn_congr hk] at hurn
    exact absurd hurn (by decide)

theorem conforming_holder (hw : r.WellNamed) :
    HolderRule kind.attributes False (fun a v => checkValue a v = .ok v) (r.Conforming kind) where
  value hd := checkedValue_rule (attributes_spellPrimary kind _ (findAttribute?_mem hd.found))
  found {root a v} h hd hf := by
    obtain ⟨key, hs, hm⟩ := Members.mem_of_find? hf
    refine h.attributes _ hm a ?_ hd.writable
    rw [Kind.attribute?, ← findAttribute?_congr _ hs, hd.found]
  set h hd hv := by
    refine conforming_of_members ?_ fun a ha hr => Members.find?_set_isSome _ (h.found ha hr)
    exact Members.forall_set h.member (conformingMember_attribute hw hd hv (sameName_refl _))
  putHeld h hd hv := by
    refine conforming_of_members ?_ fun a ha hr => Members.find?_putHeld_isSome _ (h.found ha hr)
    exact Members.forall_putHeld h.member fun key => conformingMember_attribute hw hd hv
  remove {root a} h hd hremovable := by
    refine conforming_of_members (Members.forall_remove _ h.member) fun b hb hr => ?_
    rw [Members.find?_remove_of_not_same (required_not_same hb hr hd hremovable)]
    exact h.found hb hr

theorem innerOf_spellPrimary (hw : r.WellNamed) {definitions : List Attribute}
    (h : InnerOf r kind definitions) : ∀ a ∈ definitions, a.spellsPrimary = true := by
  -- sub-attributes are below attributes of the kind or of an extension, at whatever depth
  induction h with
  | nested hd _ _ =>
    have ha := attributes_spellPrimary kind _ (findAttribute?_mem hd.found)
    exact fun sub hs => (spellsPrimary_sub ha hs).2
  | extension hs =>
    obtain ⟨urn, hs, -⟩ := hs
    obtain ⟨e, he, rfl⟩ := Option.map_eq_some_iff.mp hs
    exact hw.primary e (List.mem_of_find?_eq_some he)
  | deeper _ hd _ _ ih =>
    exact fun sub hs => (spellsPrimary_sub (ih _ (findAttribute?_mem hd.found)) hs).2

theorem conforming_rule (hw : r.WellNamed) :
    PatchRule r kind False (fun a v => checkValue a v = .ok v)
      (fun a v => checkValue a v = .ok v) CheckedObject (r.Conforming kind) where
  root := conforming_holder hw
  inner hin := checkedObject_rule (innerOf_spellPrimary hw hin)
  empty _ := CheckedObject.nil
  object _ hm hc _ := checkValue_object_self_iff hm hc
  innerObject hm hc _ := checkValue_object_self_iff hm hc
  checked _ h := h
  merged _ h hi := h.setAll hi.checked
  extension h hs hf := by
    obtain ⟨key, hk, hm⟩ := Members.mem_of_find? hf
    obtain ⟨o, ho, hc⟩ := h.extensions _ hm _ (registered_extension? hs hk)
    cases ho
    exact checkMembers_checked hc
  setExtension h hs ho := by
    refine conforming_of_members ?_ fun a ha hr => Members.find?_set_isSome _ (h.found ha hr)
    exact Members.forall_set h.member (conformingMember_extension hs ho (sameName_refl _))
  putExtension h hs ho := by
    refine conforming_of_members ?_ fun a ha hr => Members.find?_putHeld_isSome _ (h.found ha hr)
    exact Members.forall_putHeld h.member fun key => conformingMember_extension hs ho
  removeExtension h hs := by
    refine conforming_of_members (Members.forall_remove _ h.member) fun a ha hr => ?_
    rw [Members.find?_remove_of_not_same (extension_not_same hs
      (attributes_not_urn kind a (List.mem_append_right _ ha)))]
    exact h.found ha hr
  schemas h := by
    refine conforming_of_members ?_ fun a ha hr => Members.find?_putHeld_isSome _ (h.found ha hr)
    exact Members.forall_putHeld h.member fun key => conformingMember_schemas hw

end Registry

/-! ### Modifications -/

/-- Operations that succeed on a conforming resource leave a conforming one. -/
theorem Operation.applyAll_conforming {r : Registry} (hw : r.WellNamed) {kind : Kind}
    {root : Members Json} (h : r.Conforming kind root) {ops : List Operation} {v : Json}
    (happly : Operation.applyAll r kind ops (.obj root) = .ok v) :
    ∃ root', v = .obj root' ∧ r.Conforming kind root' :=
  (Registry.conforming_rule hw).applyAll h happly

/-- A registry with an extension that holds a list of its own. -/
def badgeRegistry : Registry :=
  Registry.standard.extend ⟨.user, Schema.make "urn:example:badges" "Badges" "Badges of a user"
    [Attribute.listed "badges" "The badges" (Schema.valueAttributes .string)], false⟩

def badgeHolder : Members Json :=
  [("EMAILS", .arr [.obj [("primary", .bool true), ("type", .str "work"), ("value", .str "a")]]),
    ("schemas", .arr [.str Urn.user, .str "urn:example:badges"]),
    ("urn:example:badges",
      .obj [("badges", .arr [.obj [("primary", .bool true), ("value", .str "gold")]])]),
    ("userName", .str "bjensen")]

/-- Additions that make an element from a filter, demote others, and leave an extension empty. -/
def badgeOperations : List Operation :=
  [.add (some "emails[type eq \"home\"].value") (.str "b"),
    .add (some "emails[type eq \"home\"]") (.obj [("Primary", .str "True")]),
    .add (some "urn:example:badges:badges") (.obj [("primary", .bool true), ("VALUE", .str "tin")]),
    .remove (some "urn:example:badges:badges[primary eq true]") none,
    .replace none (.obj [("NAME", .obj [("givenName", .str "Babs")]), ("username", .str "babs")]),
    .remove (some "urn:example:badges:badges") none]

theorem applyAll_conforming_badges : badgeRegistry.WellNamed ∧
    badgeRegistry.Conforming .user badgeHolder ∧
    ∃ v root', Operation.applyAll badgeRegistry .user badgeOperations (.obj badgeHolder) = .ok v ∧
      v = .obj root' ∧ badgeRegistry.Conforming .user root' := by
  have hw : badgeRegistry.WellNamed := ⟨by decide, by decide⟩
  have hc : badgeRegistry.Conforming .user badgeHolder := by decide
  obtain ⟨v, hv⟩ := exists_ok (show
    (Operation.applyAll badgeRegistry .user badgeOperations (.obj badgeHolder)).toBool = true by
      decide +kernel)
  obtain ⟨root', hroot, hr⟩ := Operation.applyAll_conforming hw hc hv
  exact ⟨hw, hc, v, root', hv, hroot, hr⟩

end Roster
