import Roster.Proofs.Patch.Outcome

/-! The objects that occur in a value, at any depth. A property of members that single puts and
drops keep, and that checked objects have, is kept by modifications of every object in a
resource. -/

namespace Roster

open Members

namespace Json

mutual

/-- The objects that occur in a value, itself included. -/
def objects (v : Json) : List (Members Json) :=
  match v with
  | .arr items => itemObjects items
  | .obj members => members :: memberObjects members
  | _ => []

def itemObjects (items : List Json) : List (Members Json) :=
  match items with
  | [] => []
  | v :: rest => v.objects ++ itemObjects rest

def memberObjects (members : List (String × Json)) : List (Members Json) :=
  match members with
  | [] => []
  | (_, v) :: rest => v.objects ++ memberObjects rest

end

/-- Every object in a value has a property. -/
def AllObjects (P : Members Json → Prop) (v : Json) : Prop :=
  ∀ o ∈ v.objects, P o

variable {P : Members Json → Prop} {items : List Json} {ms : Members Json}

theorem allObjects_arr : AllObjects P (.arr items) ↔ ∀ v ∈ items, AllObjects P v := by
  have step : (∀ o ∈ itemObjects items, P o) ↔ ∀ v ∈ items, AllObjects P v := by
    induction items with
    | nil => simp [itemObjects]
    | cons v rest ih => simp [itemObjects, or_imp, forall_and, ih, AllObjects]
  rwa [AllObjects, objects]

theorem allObjects_obj : AllObjects P (.obj ms) ↔ P ms ∧ ∀ m ∈ ms, AllObjects P m.2 := by
  have step : (∀ o ∈ memberObjects ms, P o) ↔ ∀ m ∈ ms, AllObjects P m.2 := by
    induction ms with
    | nil => simp [memberObjects]
    | cons m rest ih => simp [memberObjects, or_imp, forall_and, ih, AllObjects]
  rw [AllObjects, objects, List.forall_mem_cons, step]

/-- A value that holds nothing has no objects in it. -/
theorem allObjects_of_not_nested {v : Json} (hobj : v.isObject = false) (hitems : v.items? = none) :
    AllObjects P v := by
  cases v <;> simp_all [AllObjects, objects, isObject, items?]

/-- The objects in the object that names lead to are among those in the value. -/
theorem AllObjects.objectAt {v : Json} (h : AllObjects P v) {keys : List String}
    (ho : v.objectAt? keys = some ms) : AllObjects P (.obj ms) := by
  induction keys generalizing v with
  | nil =>
    cases v with
    | obj held =>
      obtain rfl : held = ms := by simpa [objectAt?, members?] using ho
      exact h
    | _ => simp [objectAt?, members?] at ho
  | cons key keys ih =>
    obtain ⟨w, hw, hinner⟩ := Option.bind_eq_some_iff.mp ho
    cases v with
    | obj held =>
      obtain ⟨k, -, hk⟩ := mem_of_find? (show find? held key = some w from hw)
      exact ih ((allObjects_obj.mp h).2 _ hk) hinner
    | _ => simp [member?, members?] at hw

end Json

open Json

/-! ### Properties of members -/

/-- A property of the members of an object that single puts and drops keep, and that objects have
when they are checked. -/
structure MembersRule (P : Members Json → Prop) : Prop where
  nil : P []
  set {ms : Members Json} (name : String) (v : Json) : P ms → P (Members.set ms name v)
  putHeld {ms : Members Json} (name : String) (v : Json) : P ms → P (Members.putHeld ms name v)
  remove {ms : Members Json} (name : String) : P ms → P (Members.remove ms name)
  checked {definitions : List Attribute} {ms : Members Json} : CheckedObject definitions ms → P ms

theorem sorted_set {ms : Members Json} (name : String) (v : Json) (h : Sorted ms) :
    Sorted (set ms name v) := by
  unfold Members.set
  split
  · split_ifs
    · exact sorted_insert _ _ h
    · exact sorted_insert _ _ (sorted_erase _ h)
  · exact sorted_insert _ _ h

theorem sorted_remove {ms : Members Json} (name : String) (h : Sorted ms) :
    Sorted (remove ms name) := by
  unfold Members.remove
  split
  · exact sorted_erase _ h
  · exact h

theorem sorted_rule : MembersRule Sorted where
  nil := List.Pairwise.nil
  set := sorted_set
  putHeld _ _ h := sorted_insert _ _ h
  remove := sorted_remove
  checked h := h.sorted

/-- Checked members have the names of their definitions, so that none has two spellings. -/
theorem CheckedObject.spelledOnce {definitions : List Attribute} {ms : Members Json}
    (h : CheckedObject definitions ms) (name : String) : SpelledOnce ms name := by
  intro k hk l hl hks hls
  obtain ⟨m, hm, rfl⟩ := List.mem_map.mp hk
  obtain ⟨n, hn, rfl⟩ := List.mem_map.mp hl
  obtain ⟨a, ha, hname, -⟩ := (h.checked m hm).checked
  obtain ⟨b, hb, hname', -⟩ := (h.checked n hn).checked
  have hkl : sameName m.1 n.1 = true := by
    rw [sameName_comm] at hks
    exact sameName_trans hks hls
  rw [findAttribute?_congr definitions hkl, hb] at ha
  rw [← hname, ← hname', Option.some.inj ha]

theorem spelled_rule : MembersRule fun ms => ∀ name, SpelledOnce ms name where
  nil _ := by simp [SpelledOnce, keys]
  set name v h := SpelledOnce.set_any h name v
  putHeld _ _ h name := (h name).putHeld _ _
  remove _ h name := (h name).remove _
  checked h := h.spelledOnce

namespace MembersRule

variable {P Q : Members Json → Prop} {a : Attribute}

theorem and (HP : MembersRule P) (HQ : MembersRule Q) : MembersRule fun ms => P ms ∧ Q ms where
  nil := ⟨HP.nil, HQ.nil⟩
  set name v h := ⟨HP.set name v h.1, HQ.set name v h.2⟩
  putHeld name v h := ⟨HP.putHeld name v h.1, HQ.putHeld name v h.2⟩
  remove name h := ⟨HP.remove name h.1, HQ.remove name h.2⟩
  checked h := ⟨HP.checked h, HQ.checked h⟩

theorem of_imp (H : MembersRule P) (p : Prop) : MembersRule fun ms => p → P ms where
  nil _ := H.nil
  set name v h hp := H.set name v (h hp)
  putHeld name v h hp := H.putHeld name v (h hp)
  remove name h hp := H.remove name (h hp)
  checked h _ := H.checked h

mutual

/-- A value that passes a check unchanged has the property in all its objects. -/
theorem allObjects_single (H : MembersRule P) {a : Attribute} :
    (v : Json) → checkSingle a v = .ok v → AllObjects P v
  | .obj ms, h => by
    obtain ⟨-, hobj⟩ := checkSingle_obj_self_iff.mp h
    exact allObjects_obj.mpr ⟨H.checked hobj, allObjects_members H ms hobj.checked⟩
  | .arr items, h => by
    rw [checkSingle_of_not_object rfl, guard_eq_ok, checkScalar_eq_ok] at h
    cases ht : a.type <;> simp [ht, AttributeType.admit?, Json.string?, Json.number?] at h
  | .null, _ | .bool _, _ | .num _, _ | .str _, _ => allObjects_of_not_nested rfl rfl
termination_by v => (sizeOf v, 0)

theorem allObjects_items (H : MembersRule P) {a : Attribute} :
    (items : List Json) → (∀ v ∈ items, checkSingle a v = .ok v) → ∀ v ∈ items, AllObjects P v
  | [], _ => by simp
  | v :: rest, h => by
    obtain ⟨hv, hrest⟩ := List.forall_mem_cons.mp h
    exact List.forall_mem_cons.mpr ⟨allObjects_single H v hv, allObjects_items H rest hrest⟩
termination_by items => (sizeOf items, 0)

theorem allObjects_value (H : MembersRule P) {a : Attribute} (v : Json)
    (h : checkValue a v = .ok v) : AllObjects P v := by
  cases hm : a.multiValued with
  | false => exact allObjects_single H v (checkValue_singular hm v ▸ h)
  | true =>
    obtain ⟨items, rfl, hi⟩ := (checkValue_list_self_iff hm).mp h
    exact allObjects_arr.mpr (allObjects_items H items hi)
termination_by (sizeOf v, 1)

theorem allObjects_members (H : MembersRule P) {definitions : List Attribute} :
    (ms : Members Json) → (∀ m ∈ ms, CheckedMember definitions m) → ∀ m ∈ ms, AllObjects P m.2
  | [], _ => by simp
  | (key, v) :: rest, h => by
    obtain ⟨hhead, hrest⟩ := List.forall_mem_cons.mp h
    obtain ⟨a, -, -, -, hv⟩ := hhead.checked
    exact List.forall_mem_cons.mpr ⟨allObjects_value H v hv, allObjects_members H rest hrest⟩
termination_by ms => (sizeOf ms, 0)

end

/-- The property of an object and of all objects that it holds, but for those under some names. -/
def Holds (P : Members Json → Prop) (skipped : String → Bool) (ms : Members Json) : Prop :=
  P ms ∧ ∀ m ∈ ms, skipped m.1 = false → AllObjects P m.2

section

variable {skipped : String → Bool} {ms incoming : Members Json} {name : String} {v : Json}

theorem holds_set (H : MembersRule P) (h : Holds P skipped ms) (hv : AllObjects P v) :
    Holds P skipped (Members.set ms name v) :=
  ⟨H.set name v h.1, forall_set h.2 fun _ => hv⟩

theorem holds_putHeld (H : MembersRule P) (h : Holds P skipped ms) (hv : AllObjects P v) :
    Holds P skipped (Members.putHeld ms name v) :=
  ⟨H.putHeld name v h.1, forall_putHeld h.2 fun _ _ _ => hv⟩

theorem holds_remove (H : MembersRule P) (h : Holds P skipped ms) :
    Holds P skipped (Members.remove ms name) :=
  ⟨H.remove name h.1, forall_remove name h.2⟩

theorem holds_setAll (H : MembersRule P) (h : Holds P skipped ms)
    (hi : ∀ m ∈ incoming, AllObjects P m.2) : Holds P skipped (Members.setAll ms incoming) := by
  induction incoming generalizing ms with
  | nil => exact h
  | cons m rest ih =>
    obtain ⟨hm, hrest⟩ := List.forall_mem_cons.mp hi
    exact ih (H.holds_set h hm) hrest

theorem holds_obj_iff : AllObjects P (.obj ms) ↔ Holds P (fun _ => false) ms := by
  simp [allObjects_obj, Holds]

theorem holds_root (H : MembersRule P) (h : AllObjects P v) : Holds P (fun _ => false) v.root := by
  cases v with
  | obj ms => exact holds_obj_iff.mp h
  | _ => exact ⟨H.nil, by simp [Json.root, Json.members?]⟩

end

/-- The objects in elements keep the property in every edit. -/
theorem elementRule (H : MembersRule P) (a : Attribute) : ElementRule a (AllObjects P) where
  checked h := H.allObjects_single _ (checkSingle_checked _ h)
  demoted {v} h := by
    cases v with
    | obj ms =>
      rw [Json.demoted]
      split_ifs
      · exact holds_obj_iff.mpr
          (H.holds_set (holds_obj_iff.mp h) (allObjects_of_not_nested rfl rfl))
      · exact h
    | _ => exact h
  assign h _ hnew hw := by
    obtain ⟨members, hmembers, rfl⟩ := Json.editObject_eq_ok hw
    obtain ⟨-, -, hmembers⟩ := bind_eq_ok.mp hmembers
    cases hmembers
    exact holds_obj_iff.mpr
      (H.holds_set (H.holds_root h) (H.allObjects_value _ (checkValue_checked hnew)))
  merge h hi hw := by
    obtain ⟨members, hmembers, rfl⟩ := Json.editObject_eq_ok hw
    cases hmembers
    exact holds_obj_iff.mpr
      (H.holds_setAll (H.holds_root h) (H.allObjects_members _ (checkMembers_checked hi).checked))
  drop {v w sub} h _ hw := by
    cases v with
    | obj ms =>
      rw [dropSub, guard_eq_ok] at hw
      cases hw.2
      exact holds_obj_iff.mpr (H.holds_remove (holds_obj_iff.mp h))
    | _ =>
      cases hw
      exact h

theorem valueRule (H : MembersRule P) (a : Attribute) : ValueRule a False (AllObjects P) where
  listed _ := by
    simpa only [allObjects_arr] using (H.elementRule a).listRule False
  checked _ h := H.allObjects_single _ (checkSingle_checked _ h)
  merged _ _ hheld hi := by
    refine holds_obj_iff.mpr
      (H.holds_setAll ?_ (H.allObjects_members _ (checkMembers_checked hi).checked))
    rcases hheld with hheld | rfl
    · exact holds_obj_iff.mp hheld
    · exact ⟨H.nil, by simp⟩

theorem holderRule (H : MembersRule P) {definitions : List Attribute} {skipped : String → Bool}
    (hskip : ∀ a, Defined definitions a → ∀ key, sameName a.name key = true →
      skipped key = false) :
    HolderRule definitions False (fun _ => AllObjects P) (Holds P skipped) where
  value _ := H.valueRule _
  found h hd hf := by
    obtain ⟨key, hs, hm⟩ := mem_of_find? hf
    exact h.2 _ hm (hskip _ hd key hs)
  set h _ hv := H.holds_set h hv
  putHeld h _ hv := H.holds_putHeld h hv
  remove h _ _ := H.holds_remove h

/-- Modifications keep the property of all objects in a resource but those in its list of
schemas. -/
theorem patchRule (H : MembersRule P) (r : Registry) (kind : Kind) :
    PatchRule r kind False (fun _ => AllObjects P) (fun _ => AllObjects P)
      (fun _ => Holds P fun _ => false) (Holds P (sameName "schemas")) where
  root := H.holderRule fun a hd key hs => by
    have hne := schemas_not_attribute kind a (findAttribute?_mem hd.found)
    rw [sameName_comm] at hne
    exact not_same_of_same hne hs
  inner _ := H.holderRule fun _ _ _ _ => rfl
  empty _ := ⟨H.nil, by simp⟩
  object _ _ _ _ := holds_obj_iff
  innerObject _ _ _ := holds_obj_iff
  checked _ hi := ⟨H.checked hi, fun m hm _ => H.allObjects_members _ hi.checked m hm⟩
  merged _ h hi := H.holds_setAll h (H.allObjects_members _ hi.checked)
  extension h hs hf := by
    obtain ⟨key, hkey, hm⟩ := mem_of_find? hf
    exact holds_obj_iff.mp (h.2 _ hm (not_same_of_same (registered_not_schemas hs).2 hkey))
  setExtension h _ hi := H.holds_set h (holds_obj_iff.mpr hi)
  putExtension h _ hi := H.holds_putHeld h (holds_obj_iff.mpr hi)
  removeExtension h _ := H.holds_remove h
  schemas {ms items} h := by
    refine ⟨H.putHeld _ _ h.1, forall_putHeld h.2 fun key hs hne => ?_⟩
    rw [hs] at hne
    cases hne

end MembersRule

end Roster
