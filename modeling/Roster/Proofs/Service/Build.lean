import Roster.Proofs.Json
import Roster.Proofs.Patch.Reassign
import Roster.Proofs.Patch.Untouched
import Roster.Service.Build

/-! The resource of a body: it is made by a modification of a blank one, so that it is an object and
the members of a group are a list in it. A canonical resource that is taken for a body is the same
again, but for what the server assigns. -/

namespace Roster

namespace Json

variable {v x : Json} {key : String}

theorem root_put (h : v.isObject = true) : (v.put key x).root = Members.insert v.root key x := by
  obtain ⟨ms, rfl⟩ := isObject_iff.mp h
  rfl

theorem root_without (h : v.isObject = true) : (v.without key).root = Members.erase v.root key := by
  obtain ⟨ms, rfl⟩ := isObject_iff.mp h
  rfl

end Json

theorem HeldAs.put {name key : String} {ok : Json → Prop} {v x : Json} (h : HeldAs name ok v.root)
    (ho : v.isObject = true) (hn : sameName name key = true → key = name) (hx : key = name → ok x) :
    HeldAs name ok (v.put key x).root := by
  rw [Json.root_put ho]
  exact h.of_insert hn hx

theorem MembersListed.put {v x : Json} {key : String} (h : MembersListed v.root)
    (ho : v.isObject = true) (hn : sameName "members" key = true → key = "members")
    (hx : key = "members" → ∃ items, x = .arr items) : MembersListed (v.put key x).root :=
  membersListed_iff.mpr ((membersListed_iff.mp h).put ho hn hx)

namespace Registry

variable {r : Registry} {kind : Kind} {body v : Json}

/-- A body that is accepted is assigned to a blank resource, its schemas are declared, and then no
required attribute is missing. -/
theorem build_eq_ok (h : r.build kind body = .ok v) :
    ∃ attributes schemas w, (Operation.replace none attributes).apply r kind kind.blank = .ok w ∧
      v = r.declareExtensions kind schemas w ∧ missingAttribute? kind v = none := by
  unfold build at h
  split at h
  · split at h
    · simp at h
    · rename_i schemas _
      split at h
      · simp at h
      · dsimp only at h
        split at h
        · simp at h
        · rename_i w hw
          split at h
          · simp at h
          · rename_i hmissing
            cases h
            exact ⟨_, schemas, w, hw, rfl, hmissing⟩
  · simp at h

theorem declareExtensions_eq (r : Registry) (kind : Kind) (schemas : List String) (v : Json) :
    r.declareExtensions kind schemas v = v ∨
      ∃ x, r.declareExtensions kind schemas v = v.put "schemas" x := by
  unfold declareExtensions
  split
  · exact .inr ⟨_, rfl⟩
  · exact .inl rfl

theorem build_isObject (h : r.build kind body = .ok v) : v.isObject = true := by
  obtain ⟨attributes, schemas, w, hw, rfl, -⟩ := build_eq_ok h
  have ho : w.isObject = true := PatchStep.run_keeps (P := fun v => v.isObject = true)
    (fun s resource resource' hv hs => PatchStep.apply_isObject hv hs) rfl
    (Operation.apply_run hw)
  rcases r.declareExtensions_eq kind schemas w with heq | ⟨x, heq⟩
  · rwa [heq]
  · rwa [heq, Json.isObject_put]

theorem build_membersListed (h : r.build .group body = .ok v) : MembersListed v.root := by
  have ho := build_isObject h
  obtain ⟨attributes, schemas, w, hw, rfl, -⟩ := build_eq_ok h
  have hblank : MembersListed [("schemas", .arr [.str Kind.group.coreSchema.id])] :=
    ⟨by decide, fun v hv => by simp [Members.get?] at hv⟩
  obtain ⟨root, rfl, hroot⟩ := (membersListed_rule r).apply hblank hw
  -- declared schemas are put under another name
  rcases r.declareExtensions_eq .group schemas (.obj root) with heq | ⟨x, heq⟩
  · rwa [heq]
  · rw [heq]
    refine MembersListed.put hroot rfl (fun hs => absurd hs (by decide)) fun hn => ?_
    exact absurd hn (by decide)

end Registry

variable {r : Registry} {kind : Kind} {root : Members Json} {v : Json}

/-! ### Declared extensions -/

/-- The identifiers of the extensions among declared schemas. -/
def Registry.declaredIds (r : Registry) (kind : Kind) (schemas : List String) : List String :=
  schemas.filterMap fun urn => (r.extension? kind urn).map (·.id)

/-- A list of schemas with identifiers that are not in it behind it. -/
def declareAll (declared : List Json) (ids : List String) : List Json :=
  ids.foldl (fun declared id =>
    if declared.any (·.string? == some id) then declared else declared ++ [.str id]) declared

theorem declareExtensions_obj {items : List Json} (schemas : List String)
    (h : Members.get? root "schemas" = some (.arr items)) :
    r.declareExtensions kind schemas (.obj root) = .obj (Members.insert root "schemas"
      (.arr (declareAll items (r.declaredIds kind schemas)))) := by
  have hget : (Json.obj root).get? "schemas" = some (.arr items) := h
  simp [Registry.declareExtensions, hget, Json.put, declareAll, Registry.declaredIds]

/-- Only one identifier can be among the declared ones. -/
theorem declaredIds_unique (hw : r.WellNamed) (h1 : r.Single kind) {s : Schema}
    (hs : Registered r kind s) (schemas : List String) :
    ∀ id ∈ r.declaredIds kind schemas, id = s.id := by
  intro id hid
  obtain ⟨urn, -, hurn⟩ := List.mem_filterMap.mp hid
  obtain ⟨t, ht, rfl⟩ := Option.map_eq_some_iff.mp hurn
  rw [h1.unique s t hs ⟨urn, ht, Registry.extension?_isUrn hw ht⟩]

theorem declareAll_extended {core id : String} {ids : List String} (h : ∀ x ∈ ids, x = id) :
    declareAll [.str core, .str id] ids = [.str core, .str id] := by
  induction ids with
  | nil => rfl
  | cons x rest ih =>
    obtain ⟨rfl, hrest⟩ := List.forall_mem_cons.mp h
    simpa [declareAll, Json.string?] using ih hrest

theorem declareAll_core {core id : String} {ids : List String} (hne : core ≠ id)
    (h : ∀ x ∈ ids, x = id) (hids : ids ≠ []) :
    declareAll [.str core] ids = [.str core, .str id] := by
  cases ids with
  | nil => exact absurd rfl hids
  | cons x rest =>
    obtain ⟨rfl, hrest⟩ := List.forall_mem_cons.mp h
    have hbehind : declareAll [.str core, .str x] rest = [.str core, .str x] :=
      declareAll_extended hrest
    simpa [declareAll, Json.string?, hne] using hbehind

theorem Registry.Single.core_ne (h1 : r.Single kind) {s : Schema} (hs : Registered r kind s) :
    kind.coreSchema.id ≠ s.id := by
  intro heq
  have hother := h1.other s hs
  rw [heq, sameName_refl] at hother
  cases hother

/-- An extension is found under its own identifier. -/
theorem declaredIds_mem {s : Schema} (hs : Registered r kind s) {schemas : List String}
    (h : s.id ∈ schemas) : r.declaredIds kind schemas ≠ [] := by
  refine List.ne_nil_of_mem (a := s.id) (List.mem_filterMap.mpr ⟨s.id, h, ?_⟩)
  rw [registered_extension? hs (sameName_refl _), Option.map_some]

/-- The core schema is no extension. -/
theorem declaredIds_core (hw : r.WellNamed) (h1 : r.Single kind) :
    r.declaredIds kind [kind.coreSchema.id] = [] := by
  have hnone : r.extension? kind kind.coreSchema.id = none := by
    cases hext : r.extension? kind kind.coreSchema.id with
    | none => rfl
    | some t =>
      have hother := h1.other t ⟨_, hext, Registry.extension?_isUrn hw hext⟩
      obtain ⟨-, -, -, hname⟩ := Registry.extension?_some hext
      rw [hname] at hother
      cases hother
  simp [Registry.declaredIds, hnone]

namespace Declares

theorem insert_schemas {items : List Json}
    (hi : items = [.str kind.coreSchema.id] ∧ (∀ s, Registered r kind s →
        Members.get? root s.id = none) ∨
      ∃ s, Registered r kind s ∧ items = [.str kind.coreSchema.id, .str s.id]) :
    Declares r kind (Members.insert root "schemas" (.arr items)) := by
  rcases hi with ⟨rfl, hfree⟩ | ⟨s, hs, rfl⟩
  · refine .core (Members.get?_insert_self _ _ _) fun s hs => ?_
    rw [Members.get?_insert_of_ne _ _ (registered_ne_schemas hs), hfree s hs]
  · exact .extended s hs (Members.get?_insert_self _ _ _)

/-- Declared extensions are added behind the core schema, if they are not there. -/
theorem declareExtensions (hw : r.WellNamed) (h1 : r.Single kind) (h : Declares r kind root)
    (schemas : List String) : ∃ items,
      r.declareExtensions kind schemas (.obj root) =
        .obj (Members.insert root "schemas" (.arr items)) ∧
      Declares r kind (Members.insert root "schemas" (.arr items)) ∧
      (r.declaredIds kind schemas = [] → Members.get? root "schemas" = some (.arr items)) ∧
      ∀ s, Registered r kind s → s.id ∈ schemas →
        items = [.str kind.coreSchema.id, .str s.id] := by
  cases h with
  | core items free =>
    refine ⟨_, declareExtensions_obj schemas items, ?_, fun hnil => ?_, fun s hs hmem => ?_⟩
    · refine insert_schemas ?_
      cases hids : r.declaredIds kind schemas with
      | nil => exact .inl ⟨rfl, free⟩
      | cons id rest =>
        obtain ⟨urn, -, hurn⟩ := List.mem_filterMap.mp (hids ▸ List.mem_cons_self :
          id ∈ r.declaredIds kind schemas)
        obtain ⟨s, hs, rfl⟩ := Option.map_eq_some_iff.mp hurn
        have hreg : Registered r kind s := ⟨urn, hs, Registry.extension?_isUrn hw hs⟩
        refine .inr ⟨s, hreg, ?_⟩
        rw [← hids]
        exact declareAll_core (h1.core_ne hreg) (declaredIds_unique hw h1 hreg schemas)
          (by simp [hids])
    · rw [hnil, items]
      rfl
    · exact declareAll_core (h1.core_ne hs) (declaredIds_unique hw h1 hs schemas)
        (declaredIds_mem hs hmem)
  | extended t ht items =>
    have hsame : declareAll [.str kind.coreSchema.id, .str t.id] (r.declaredIds kind schemas) =
        [.str kind.coreSchema.id, .str t.id] :=
      declareAll_extended (declaredIds_unique hw h1 ht schemas)
    refine ⟨_, declareExtensions_obj schemas items, ?_, fun _ => ?_, fun s hs _ => ?_⟩
    · exact insert_schemas (.inr ⟨t, ht, hsame⟩)
    · rw [hsame, items]
    · rw [hsame, h1.unique t s ht hs]

end Declares

/-! ### A canonical resource as a body -/

/-- The resource that holds nothing yet. -/
theorem blank_declares (r : Registry) (kind : Kind) :
    Canonical r kind kind.blank.root ∧ Declares r kind kind.blank.root := by
  refine ⟨⟨List.pairwise_singleton _ _, ?_⟩, .core (by simp [Kind.blank, Json.root, Json.members?,
    Members.get?]) fun s hs => ?_⟩
  · intro m hm
    obtain rfl := List.mem_singleton.mp hm
    exact .schemas _
  · simp [Kind.blank, Json.root, Json.members?, Members.get?, (registered_ne_schemas hs).symm]

/-- The schemas in the list of a canonical resource. -/
theorem Declares.strings (h : Declares r kind root) : ∃ schemas,
    (Members.get? root "schemas").bind Json.strings? = some schemas ∧
      Members.get? root "schemas" = some (.arr (schemas.map .str)) ∧
      (schemas = [kind.coreSchema.id] ∧ (∀ s, Registered r kind s →
          Members.get? root s.id = none) ∨
        ∃ s, Registered r kind s ∧ schemas = [kind.coreSchema.id, s.id]) := by
  cases h with
  | core items free =>
    exact ⟨[kind.coreSchema.id], by rw [items]; rfl, items, .inl ⟨rfl, free⟩⟩
  | extended s hs items =>
    exact ⟨[kind.coreSchema.id, s.id], by rw [items]; rfl, items, .inr ⟨s, hs, rfl⟩⟩

/-- A list of the core schema and known extensions is accepted, if the required ones are in it. -/
theorem checkSchemas_ok {schemas : List String} (hcore : kind.coreSchema.id ∈ schemas)
    (hknown : ∀ urn ∈ schemas, urn = kind.coreSchema.id ∨ ∃ s, Registered r kind s ∧ urn = s.id)
    (hreq : ∀ urn ∈ r.requiredExtensions kind, schemas.any (sameName urn) = true) :
    r.checkSchemas kind schemas = .ok () := by
  have hdeclared : schemas.any (sameName kind.coreSchema.id) = true :=
    List.any_eq_true.mpr ⟨_, hcore, sameName_refl _⟩
  have hrequired : (r.requiredExtensions kind).find?
      (fun urn => !schemas.any (sameName urn)) = none := by
    rw [List.find?_eq_none]
    intro urn hu
    simp [hreq urn hu]
  have hsupported : schemas.find? (fun urn => !sameName kind.coreSchema.id urn &&
      (r.extension? kind urn).isNone) = none := by
    rw [List.find?_eq_none]
    intro urn hu
    rcases hknown urn hu with rfl | ⟨s, hs, rfl⟩
    · simp
    · simp [registered_extension? hs (sameName_refl _)]
  simp only [Registry.checkSchemas, hdeclared, Bool.not_true, Bool.false_eq_true, if_false,
    hrequired, hsupported]

/-- A required attribute is found under its own name, with a value that is not null. -/
theorem Canonical.required (hc : Canonical r kind root) {a : Attribute}
    (ha : a ∈ kind.coreSchema.attributes) (hr : a.required = true)
    (hf : (Members.find? root a.name).isSome = true) :
    ∃ v, Members.find? root a.name = some v ∧ v.isNull = false := by
  obtain ⟨b, hb, -, -, hro⟩ := required_found kind a ha hr
  have hmem : a ∈ kind.attributes := List.mem_append_right _ ha
  have hname : b.name = a.name := attributes_spelled kind a hmem b (findAttribute?_mem hb)
    (sameName_comm b.name a.name ▸ findAttribute?_sameName hb)
  obtain ⟨v, hv⟩ := Option.isSome_iff_exists.mp hf
  have hd : Defined kind.attributes b := ⟨hname ▸ hb, hro⟩
  refine ⟨v, hv, checkValue_not_null (hc.value hd (v := v) ?_)⟩
  rwa [hname, ← hc.find? (.defined hmem)]

/-- No attribute is missing where the required ones are found. -/
theorem missingAttribute?_eq_none (hc : Canonical r kind root)
    (hreq : ∀ a ∈ kind.coreSchema.attributes, a.required = true →
      (Members.find? root a.name).isSome = true) :
    Registry.missingAttribute? kind (.obj root) = none := by
  rw [Registry.missingAttribute?, List.find?_eq_none]
  intro a ha
  cases hr : a.required with
  | false => simp
  | true =>
    obtain ⟨v, hv, hnull⟩ := hc.required ha hr (hreq a ha hr)
    simp [Json.member?, Json.members?, hv, hnull]

/-- The members of a canonical resource that a client may assign. -/
theorem mem_assignable (hc : Canonical r kind root) {m : String × Json}
    (hm : m ∈ Registry.assignable kind root) : m ∈ root ∧ Fits r kind m ∧ kind.Assigns m := by
  obtain ⟨hin, hro⟩ := List.mem_filter.mp hm
  obtain ⟨hroot, hne⟩ := List.mem_filter.mp hin
  exact ⟨hroot, hc.fits m hroot, by simpa using hne, by simpa using hro⟩

theorem get?_assignable (key : String) (hkey : key ≠ "schemas") :
    Members.get? (Registry.assignable kind root) key =
      if kind.isReadOnly key then none else Members.get? root key := by
  rw [Registry.assignable, Members.get?_filter (fun name => !kind.isReadOnly name),
    Members.get?_erase_of_ne root hkey]
  cases kind.isReadOnly key <;> rfl

/-- Of the names of read-only attributes, a canonical resource holds what the server assigns. -/
theorem Canonical.readOnly (hc : Canonical r kind root) {key : String}
    (hro : kind.isReadOnly key = true) (hkey : key ∉ ["id", "meta"]) :
    Members.get? root key = none := by
  cases hv : Members.get? root key with
  | none => rfl
  | some v =>
    have hfits := hc.fits _ (Members.mem_of_get? hv)
    generalize hm : (key, v) = m at hfits
    cases hfits with
    | schemas =>
      cases hm
      rw [schemas_not_readOnly] at hro
      cases hro
    | assigned _ hk =>
      cases hm
      exact absurd hk hkey
    | defined hd _ =>
      cases hm
      simp [Kind.isReadOnly, Kind.attribute?, hd.found, hd.writable] at hro
    | registered hs _ =>
      cases hm
      rw [registered_not_readOnly hs] at hro
      cases hro

/-- The schemas that a canonical resource declares are accepted, if the required extensions are
among them. -/
theorem Declares.accepted (h : Declares r kind root)
    (hdeclared : ∀ urn ∈ r.requiredExtensions kind, ∃ items,
      Members.get? root "schemas" = some (.arr items) ∧ items.any (Json.isUrnOf urn) = true) :
    ∃ schemas, (Members.get? root "schemas").bind Json.strings? = some schemas ∧
      r.checkSchemas kind schemas = .ok () ∧
      Members.get? root "schemas" = some (.arr (schemas.map .str)) ∧
      (schemas = [kind.coreSchema.id] ∧ (∀ s, Registered r kind s →
          Members.get? root s.id = none) ∨
        ∃ s, Registered r kind s ∧ schemas = [kind.coreSchema.id, s.id]) := by
  obtain ⟨schemas, hstrings, hlist, hschemas⟩ := h.strings
  refine ⟨schemas, hstrings, checkSchemas_ok ?_ ?_ fun urn hurn => ?_, hlist, hschemas⟩
  · rcases hschemas with ⟨rfl, -⟩ | ⟨s, -, rfl⟩ <;> simp
  · rcases hschemas with ⟨rfl, -⟩ | ⟨s, hs, rfl⟩
    · simp
    · intro urn hurn
      rcases List.mem_pair.mp hurn with rfl | rfl
      · exact .inl rfl
      · exact .inr ⟨s, hs, rfl⟩
  · obtain ⟨items, hitems, hany⟩ := hdeclared urn hurn
    rw [hlist] at hitems
    cases hitems
    simpa [List.any_map, Function.comp_def, Json.isUrnOf, Json.string?] using hany

/-- What a client may assign of a canonical resource, assigned to the resource that holds nothing
and with its schemas declared, is the same again without what the server assigns. -/
theorem reassemble (hw : r.WellNamed) (hr : r.Addressable kind) (hc : Canonical r kind root)
    (hone : ∀ m ∈ root, m.2.OneMarked) {schemas : List String}
    (hlist : Members.get? root "schemas" = some (.arr (schemas.map .str)))
    (hschemas : schemas = [kind.coreSchema.id] ∧ (∀ s, Registered r kind s →
        Members.get? root s.id = none) ∨
      ∃ s, Registered r kind s ∧ schemas = [kind.coreSchema.id, s.id]) :
    ∃ assigned built,
      assignMembers r kind .replace (Registry.assignable kind root) kind.blank =
        .ok (.obj assigned) ∧
      r.declareExtensions kind schemas (.obj assigned) = .obj built ∧ Canonical r kind built ∧
      ∀ key, Members.get? built key =
        if key ∈ ["id", "meta"] then none else Members.get? root key := by
  obtain ⟨hblank, hblankDeclares⟩ := blank_declares r kind
  obtain ⟨assigned, hrun, hca, hda, hget, hkept⟩ := assignMembers_fits hw hr
    (fun m hm => ⟨(mem_assignable hc hm).2.1, (mem_assignable hc hm).2.2,
      hone m (mem_assignable hc hm).1⟩)
    (Members.nodup_keys (Members.sorted_filter _ (Members.sorted_erase "schemas" hc.sorted)))
    hblank hblankDeclares
  obtain ⟨items, hext, -, hnone, hsome⟩ := hda.declareExtensions hw hr.toSingle schemas
  have hitems : some (Json.arr items) = Members.get? root "schemas" := by
    rw [hlist]
    rcases hschemas with ⟨rfl, hfree⟩ | ⟨s, hs, rfl⟩
    · -- without an extension nothing is added to the list
      have hfirst : Members.get? assigned "schemas" = Members.get? kind.blank.root "schemas" := by
        refine hkept fun s hs => ?_
        rw [get?_assignable s.id (registered_ne_schemas hs), hfree s hs, ite_self]
      rw [← hnone (declaredIds_core hw hr.toSingle), hfirst]
      rfl
    · rw [hsome s hs (by simp)]
      rfl
  refine ⟨assigned, _, hrun, hext, hca.insert (.schemas items), fun key => ?_⟩
  by_cases hkey : key = "schemas"
  · subst hkey
    rw [Members.get?_insert_self, hitems, if_neg (by decide)]
  · have hnoblank : Members.get? kind.blank.root key = none := by
      simp [Kind.blank, Json.root, Json.members?, Members.get?, Ne.symm hkey]
    rw [Members.get?_insert_of_ne _ _ hkey, hget key hkey, hnoblank, Option.or_none,
      get?_assignable key hkey]
    by_cases hserver : key ∈ ["id", "meta"]
    · obtain ⟨-, -, -, hro⟩ := assigned_attribute kind key hserver
      rw [if_pos hro, if_pos hserver]
    · rw [if_neg hserver]
      split_ifs with hro
      · exact (hc.readOnly hro hserver).symm
      · rfl

/-- A canonical resource that declares its required extensions is accepted as a body. It describes
itself without what the server assigns. -/
theorem Registry.build_canonical (hw : r.WellNamed) (hr : r.Addressable kind)
    (hc : Canonical r kind root) (hd : Declares r kind root)
    (hreq : ∀ a ∈ kind.coreSchema.attributes, a.required = true →
      (Members.find? root a.name).isSome = true)
    (hone : ∀ m ∈ root, m.2.OneMarked)
    (hdeclared : ∀ urn ∈ r.requiredExtensions kind, ∃ items,
      Members.get? root "schemas" = some (.arr items) ∧ items.any (Json.isUrnOf urn) = true) :
    ∃ built, r.build kind (.obj root) = .ok (.obj built) ∧ Members.Sorted built ∧
      ∀ key, Members.get? built key =
        if key ∈ ["id", "meta"] then none else Members.get? root key := by
  obtain ⟨schemas, hstrings, hcheck, hlist, hschemas⟩ := hd.accepted hdeclared
  obtain ⟨assigned, built, hrun, hext, hcb, hbuilt⟩ := reassemble hw hr hc hone hlist hschemas
  refine ⟨built, ?_, hcb.sorted, hbuilt⟩
  have hmissing : missingAttribute? kind (.obj built) = none := by
    refine missingAttribute?_eq_none hcb fun a ha hreqa => ?_
    have hmem : a ∈ kind.attributes := List.mem_append_right _ ha
    have hserver : a.name ∉ ["id", "meta"] := by
      intro hin
      obtain ⟨-, -, -, hro⟩ := assigned_attribute kind _ hin
      obtain ⟨b, hb, -, -, hbro⟩ := required_found kind a ha hreqa
      simp [Kind.isReadOnly, Kind.attribute?, hb, hbro] at hro
    have hfound := hreq a ha hreqa
    rw [hc.find? (.defined hmem)] at hfound
    rwa [hcb.find? (.defined hmem), hbuilt, if_neg hserver]
  have happly : (Operation.replace none (.obj (assignable kind root))).apply r kind kind.blank =
      .ok (.obj assigned) := hrun
  simp only [build, hstrings, hcheck, happly, hext, hmissing]

end Roster
