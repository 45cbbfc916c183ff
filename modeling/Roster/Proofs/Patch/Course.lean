import Roster.Proofs.Patch.Aims

/-! The course that the replacement at one path takes, and what it leaves as it was: every place
apart from its target. -/

namespace Roster

open Members Json

/-! ### The list of schemas -/

/-- The declaration of a URN has nothing to add: the list of schemas names it, or is no list. -/
def Acknowledged (urn : String) (root : Members Json) : Prop :=
  match find? root "schemas" with
  | some (.arr items) => items.any (isUrnOf urn) = true
  | some .null | none => False
  | some _ => True

/-- The list of schemas, if there is one, does not name a URN. -/
def Unlisted (urn : String) (root : Members Json) : Prop :=
  ∀ items, find? root "schemas" = some (.arr items) → items.any (isUrnOf urn) = false

section

variable {urn : String} {root root' : Members Json}

theorem acknowledged_congr (h : find? root' "schemas" = find? root "schemas") :
    Acknowledged urn root' ↔ Acknowledged urn root := by
  rw [Acknowledged, Acknowledged, h]

theorem unlisted_congr (h : find? root' "schemas" = find? root "schemas") :
    Unlisted urn root' ↔ Unlisted urn root := by
  rw [Unlisted, Unlisted, h]

theorem acknowledged_declare (urn : String) (root : Members Json) :
    Acknowledged urn ((Json.obj root).declare urn).root := by
  unfold Json.declare
  split
  · rename_i v hv
    obtain ⟨root', hedit, rfl⟩ := Json.editObject_eq_ok hv
    obtain ⟨items, hitems, rfl⟩ := editList_eq_ok hedit
    have hnamed : items.any (isUrnOf urn) = true := by
      rw [← Except.ok.inj hitems]
      exact any_withUrn_self urn _
    simpa [Acknowledged, Json.root, members?, find?_putHeld_self] using hnamed
  · rename_i e he
    -- what is held for the list is neither null nor a list
    cases hf : find? root "schemas" with
    | none => simp [editAt, Json.editObject, editWithin, Members.editList, edit, get?_heldKey, hf,
        Json.editList, Except.map] at he
    | some held =>
      cases held with
      | null | arr => simp [editAt, Json.editObject, editWithin, Members.editList, edit,
          get?_heldKey, hf, Json.editList, Except.map] at he
      | _ => simp [Acknowledged, Json.root, members?, hf]

theorem declare_eq_self (hs : Sorted root) (h : Acknowledged urn root) :
    (Json.obj root).declare urn = .obj root := by
  unfold Acknowledged at h
  split at h
  · rename_i items hf
    rw [declare_items urn hf, withUrn, if_pos h, putHeld_of_find? hs hf]
  · cases h
  · cases h
  · rename_i held hlist hnull hf
    -- what is held for the list is neither null nor a list, so that nothing is declared
    cases held with
    | null => exact absurd rfl hnull
    | arr items => exact absurd rfl (hlist items)
    | _ => simp [Json.declare, editAt, Json.editObject, editWithin, Members.editList, edit,
        get?_heldKey, hf, Json.editList, Except.map]

theorem unlisted_undeclare (urn : String) (root : Members Json) :
    Unlisted urn ((Json.obj root).undeclare urn).root := by
  intro items hitems
  cases hf : find? root "schemas" with
  | none => simp [undeclare, editHeldList, hf, Json.root, members?] at hitems
  | some held =>
    cases held with
    | arr held =>
      rw [undeclare_items urn hf] at hitems
      have heq := (find?_putHeld_self root "schemas" _).symm.trans hitems
      rw [← Json.arr.inj (Option.some.inj heq)]
      simp
    | _ => simp [undeclare, editHeldList, hf, Json.root, members?] at hitems

theorem undeclare_eq_self (hs : Sorted root) (h : Unlisted urn root) :
    (Json.obj root).undeclare urn = .obj root := by
  cases hf : find? root "schemas" with
  | none => simp [undeclare, editHeldList, hf]
  | some held =>
    cases held with
    | arr items =>
      have hall : (items.filter fun v => !v.isUrnOf urn) = items := by
        refine List.filter_eq_self.mpr fun v hv => ?_
        simpa using List.any_eq_false.mp (h items hf) v hv
      rw [undeclare_items urn hf, hall, putHeld_of_find? hs hf]
    | _ => simp [undeclare, editHeldList, hf]

end

section

variable {r : Registry} {kind : Kind} {path : String} {t u : Target} {c : Option Condition}
  {value resource v : Json} {root root' : Members Json} {keys : List String} {name urn : String}

/-! ### What one replacement does -/

/-- The course of a replacement: an extension is written or dropped as a whole, a value is put in
the place of another, nothing is there to be removed, or something is removed. -/
inductive Course (t : Target) (c : Option Condition) (value resource : Json) : Json → Prop where
  | written {incoming : Members Json} (whole : t.definition = none) (present : value.isNull = false)
      (checked : checkMembers t.name t.members value = .ok incoming) :
      Course t c value resource
        ((Json.obj (Members.set resource.root t.name (.obj incoming))).declare t.name)
  | dropped (whole : t.definition = none) (null : value.isNull = true) :
      Course t c value resource ((resource.dropMember t.name).undeclare t.name)
  | replaced {a : Attribute} {root' : Members Json} (part : t.definition = some a)
      (present : value.isNull = false)
      (edited : editWithin t.container ((t.inside c resource).replaceIn a value) resource.root =
        .ok root') :
      Course t c value resource (t.declareIn (.obj root'))
  | absent {a : Attribute} (part : t.definition = some a) (null : value.isNull = true)
      (nothing : resource.objectAt? t.container = none) : Course t c value resource resource
  | removed {a : Attribute} {root' : Members Json} (part : t.definition = some a)
      (null : value.isNull = true) (found : (resource.objectAt? t.container).isSome = true)
      (matched : (t.inside c resource).selection ≠ .elements [])
      (edited : editWithin t.container ((t.inside c resource).removal a none) resource.root =
        .ok root') :
      Course t c value resource (t.dropIn (.obj root'))

theorem Aims.course (h : Aims r kind path t c)
    (hs : (PatchStep.assign .replace path value).apply r kind resource = .ok v) :
    Course t c value resource v := by
  obtain ⟨t', ht', hs⟩ := bind_eq_ok.mp hs
  obtain rfl : t.inside c resource = t' := Except.ok.inj ((h.resolved resource).symm.trans ht')
  cases hnull : value.isNull with
  | true =>
    simp only [hnull, ↓reduceIte] at hs
    cases Target.remove_eq_ok hs with
    | whole hd => exact .dropped hd hnull
    | absent hd _ hnone => exact .absent hd hnull hnone
    | part hd hmatch hsome hedit =>
      obtain ⟨root', hroot, rfl⟩ := Json.editObject_eq_ok hedit
      exact .removed hd hnull hsome hmatch hroot
  | false =>
    simp only [hnull, Bool.false_eq_true, ↓reduceIte] at hs
    cases Target.replace_eq_ok hs with
    | whole hd hi => exact .written hd hnull hi
    | part hd _ hedit =>
      obtain ⟨root', hroot, rfl⟩ := Json.editObject_eq_ok hedit
      exact .replaced hd hnull hroot

/-! ### What it leaves of other places -/

theorem declare_slot (urn : String) (root : Members Json)
    (hplace : apart ["schemas"] (keys ++ [name]) = true) :
    ((Json.obj root).declare urn).slot keys name = (Json.obj root).slot keys name := by
  obtain ⟨root', hroot, hothers⟩ := declare_besides urn root
  rw [hroot]
  exact slot_of_besides hothers hplace

theorem undeclare_slot (urn : String) (root : Members Json)
    (hplace : apart ["schemas"] (keys ++ [name]) = true) :
    ((Json.obj root).undeclare urn).slot keys name = (Json.obj root).slot keys name := by
  obtain ⟨root', hroot, hothers⟩ := undeclare_besides urn root
  rw [hroot]
  exact slot_of_besides hothers hplace

theorem slot_of_empty (h : find? root urn = none ∨ find? root urn = some (.obj [])) :
    (Json.obj root).slot (urn :: keys) name = [] := by
  rw [slot_cons]
  rcases h with h | h <;> rw [h] <;> cases keys <;> rfl

/-- The drop of an empty extension shows at the extension and in the list of schemas only. -/
theorem dropEmptyExtension_slot (hone : SpelledOnce root urn)
    (hplace : apart ["schemas"] (keys ++ [name]) = true)
    (hwithin : apart [urn] (keys ++ [name]) = true ∨ ∃ rest, keys = urn :: rest) :
    ((Json.obj root).dropEmptyExtension urn).slot keys name = (Json.obj root).slot keys name := by
  unfold Json.dropEmptyExtension
  split
  · rename_i hempty
    have hempty : find? root urn = some (.obj []) := hempty
    rw [Json.dropMember, undeclare_slot _ _ hplace]
    rcases hwithin with hapart | ⟨rest, rfl⟩
    · exact slot_of_besides (besides_remove _ _) hapart
    · rw [slot_of_empty (.inl hone.find?_remove), slot_of_empty (.inr hempty)]
  · rfl

theorem Target.dropIn_slot (hone : ∀ urn ∈ t.extension, SpelledOnce root urn)
    (hschemas : t.extension ≠ none → apart ["schemas"] (keys ++ [name]) = true)
    (hwithin : ∀ urn ∈ t.extension, apart [urn] (keys ++ [name]) = true ∨
      ∃ rest, keys = urn :: rest) :
    (t.dropIn (.obj root)).slot keys name = (Json.obj root).slot keys name := by
  unfold Target.dropIn
  split
  · rename_i urn hext
    exact dropEmptyExtension_slot (hone urn hext) (hschemas (by simp [hext])) (hwithin urn hext)
  · rfl

theorem Target.declareIn_slot
    (hschemas : t.extension ≠ none → apart ["schemas"] (keys ++ [name]) = true) :
    (t.declareIn (.obj root)).slot keys name = (Json.obj root).slot keys name := by
  unfold Target.declareIn
  split
  · rename_i urn hext
    exact declare_slot _ _ (hschemas (by simp [hext]))
  · rfl

/-- Objects on the way to an edit are put back under their held names. -/
theorem editWithin_spelledOnce {key : String} {f : Edit (Members Json)}
    (h : editWithin (key :: keys) f root = .ok root') (hone : SpelledOnce root name) :
    SpelledOnce root' name := by
  obtain ⟨inner, -, rfl⟩ := editObject_root h
  exact hone.putHeld _ _

theorem Course.slot (h : Course t c value resource v) (haims : Aims r kind path t c)
    (hone : value.isNull = true → ∀ urn ∈ t.extension, SpelledOnce resource.root urn)
    (hs : t.Spares keys name) : v.slot keys name = resource.slot keys name := by
  rw [← slot_root resource]
  cases h with
  | written hwhole =>
    obtain ⟨hc, hext⟩ := haims.whole hwhole
    rw [declare_slot _ _ (hs.schemas (by simp [hext]))]
    refine slot_of_besides (besides_set _ _ _) ?_
    simpa [Target.address, hc] using hs.apart
  | dropped hwhole =>
    obtain ⟨hc, hext⟩ := haims.whole hwhole
    cases resource with
    | obj root =>
      rw [Json.dropMember, undeclare_slot _ _ (hs.schemas (by simp [hext]))]
      refine slot_of_besides (besides_remove _ _) ?_
      simpa [Target.address, hc] using hs.apart
    | _ => exact (slot_root _ _ _).symm
  | replaced hpart _ hedit =>
    obtain ⟨_, hin⟩ := haims.within hpart resource
    rw [Target.declareIn_slot hs.schemas]
    refine editWithin_slot (fun o o' ho => ?_) hedit hs.apart
    rw [haims.named _ hpart]
    exact hin.replaceIn_besides ho
  | absent => exact (slot_root _ _ _).symm
  | removed hpart hnull _ _ hedit =>
    obtain ⟨_, hin⟩ := haims.within hpart resource
    rw [Target.dropIn_slot (fun urn hext => ?_) hs.schemas hs.within]
    · refine editWithin_slot (fun o o' ho => ?_) hedit hs.apart
      rw [haims.named _ hpart]
      exact hin.removal_besides ho
    · obtain ⟨keys', hkeys'⟩ := haims.lies.container_of_part hext (by simp [hpart])
      rw [hkeys'] at hedit
      exact editWithin_spelledOnce hedit (hone hnull _ hext)

end

end Roster
