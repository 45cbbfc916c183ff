import Roster.Proofs.Patch.Objects

/-! Places in a resource: what is held of a name in the object that other names lead to. An edit at
one place leaves every place apart from it as it was, and an edit that changes nothing at its place
changes nothing at all. -/

namespace Roster

open Members

/-! ### Places -/

/-- Two sequences of names lead to places apart from each other: they part at names which differ in
more than letter case. -/
def apart : List String → List String → Bool
  | j :: js, k :: ks => if j = k then apart js ks else !sameName j k
  | _, _ => false

@[simp] theorem apart_nil (ks : List String) : apart ks [] = false := by
  cases ks <;> rfl

theorem apart_comm (js ks : List String) : apart js ks = apart ks js := by
  induction js generalizing ks with
  | nil => cases ks <;> rfl
  | cons j js ih =>
    cases ks with
    | nil => rfl
    | cons k ks =>
      by_cases h : j = k
      · simp [apart, h, ih]
      · simp [apart, h, Ne.symm h, sameName_comm j k]

theorem apart_cons_of_not_same {j k : String} (h : sameName j k = false) (js ks : List String) :
    apart (j :: js) (k :: ks) = true := by
  simp [apart, ne_of_not_same h, h]

theorem apart_cons_self (k : String) (js ks : List String) :
    apart (k :: js) (k :: ks) = apart js ks := by
  simp [apart]

theorem apart_singleton (j k : String) (ks : List String) :
    apart [j] (k :: ks) = !sameName j k := by
  by_cases h : j = k <;> simp [apart, h, sameName_refl]

namespace Json

/-- The object that names lead to, empty where there is none. -/
def holderAt (v : Json) (keys : List String) : Members Json :=
  (v.objectAt? keys).getD []

/-- The members held for a name in the object that other names lead to. -/
def slot (v : Json) (keys : List String) (name : String) : Members Json :=
  under (v.holderAt keys) name

variable {v : Json} {ms ms' : Members Json} {keys keys' : List String} {name name' : String}

theorem holderAt_root (v : Json) (keys : List String) :
    (Json.obj v.root).holderAt keys = v.holderAt keys := by
  cases v with
  | obj ms => rfl
  | _ => cases keys <;> rfl

theorem slot_root (v : Json) (keys : List String) (name : String) :
    (Json.obj v.root).slot keys name = v.slot keys name := by
  rw [slot, holderAt_root, slot]

theorem holderAt_cons (ms : Members Json) (key : String) (keys : List String) :
    (Json.obj ms).holderAt (key :: keys) = ((find? ms key).getD .null).holderAt keys := by
  cases hf : find? ms key with
  | some v => simp [holderAt, objectAt?, member?, members?, hf]
  | none => cases keys <;> simp [holderAt, objectAt?, member?, members?, hf]

theorem slot_cons (ms : Members Json) (key : String) (keys : List String) (name : String) :
    (Json.obj ms).slot (key :: keys) name = ((find? ms key).getD .null).slot keys name := by
  rw [slot, holderAt_cons, slot]

/-- The list held at a place. -/
theorem follow?_eq (v : Json) (keys : List String) (name : String) :
    ((v.follow? keys name).bind items?).getD [] = listAt (v.holderAt keys) name := by
  induction keys generalizing v with
  | nil => cases v <;> rfl
  | cons key keys ih =>
    cases v with
    | obj ms =>
      rw [holderAt_cons, ← ih, follow?]
      cases hf : find? ms key with
      | some w => simp [member?, members?, hf]
      | none => cases keys <;> simp [member?, members?, hf, follow?]
    | _ => rfl

end Json

open Json

/-! ### Edits at a place -/

section

variable {v w : Json} {ms ms' : Members Json} {keys keys' : List String} {name name' : String}
  {f : Edit (Members Json)}

/-- An edited object is put back under the name that it is held for. -/
theorem editObject_root (h : Members.editObject name f ms = .ok ms') :
    ∃ inner, f ((find? ms name).getD .null).root = .ok inner ∧
      putHeld ms name (.obj inner) = ms' := by
  obtain ⟨v, hv, rfl⟩ := edit_eq_ok.mp h
  obtain ⟨inner, hi, rfl⟩ := Json.editObject_eq_ok hv
  exact ⟨inner, hi, rfl⟩

/-- What changes no member but those of a name leaves all places apart from the name. -/
theorem slot_of_besides (h : besides ms' name = besides ms name)
    (hapart : apart [name] (keys ++ [name']) = true) :
    (Json.obj ms').slot keys name' = (Json.obj ms).slot keys name' := by
  cases keys with
  | nil =>
    rw [List.nil_append, apart_singleton, Bool.not_eq_true'] at hapart
    exact under_of_besides h hapart
  | cons key keys =>
    rw [List.cons_append, apart_singleton, Bool.not_eq_true'] at hapart
    rw [slot_cons, slot_cons, find?_of_besides h hapart]

theorem editWithin_slot (hf : ∀ h h', f h = .ok h' → besides h' name = besides h name)
    (h : editWithin keys f ms = .ok ms')
    (hapart : apart (keys ++ [name]) (keys' ++ [name']) = true) :
    (Json.obj ms').slot keys' name' = (Json.obj ms).slot keys' name' := by
  induction keys generalizing ms ms' keys' with
  | nil => exact slot_of_besides (hf _ _ h) hapart
  | cons key keys ih =>
    obtain ⟨inner, hinner, rfl⟩ := editObject_root h
    have hbesides := besides_putHeld ms key (.obj inner)
    cases keys' with
    | nil =>
      refine slot_of_besides hbesides ?_
      by_cases heq : key = name'
      · subst heq
        rw [List.cons_append, List.nil_append, apart_cons_self] at hapart
        simp at hapart
      · simpa [apart, heq] using hapart
    | cons key' keys' =>
      by_cases heq : key = key'
      · -- both places lie in the object that is edited
        subst heq
        rw [List.cons_append, List.cons_append, apart_cons_self] at hapart
        rw [slot_cons, slot_cons, find?_putHeld_self]
        exact (ih hinner hapart).trans (slot_root _ _ _)
      · refine slot_of_besides hbesides ?_
        simpa [apart, heq] using hapart

/-- The edit is made in the object that the names lead to. -/
theorem editWithin_holderAt (h : editWithin keys f ms = .ok ms') :
    f ((Json.obj ms).holderAt keys) = .ok ((Json.obj ms').holderAt keys) := by
  induction keys generalizing ms ms' with
  | nil => exact h
  | cons key keys ih =>
    obtain ⟨inner, hinner, rfl⟩ := editObject_root h
    rw [holderAt_cons, holderAt_cons, find?_putHeld_self, ← holderAt_root]
    exact ih hinner

/-- An edit that leaves the object as it is that the names lead to leaves all as it is. -/
theorem editWithin_eq_self
    (hs : ∀ front, front <+: keys → ∀ o, (Json.obj ms).objectAt? front = some o → Sorted o)
    (hheld : ((Json.obj ms).objectAt? keys).isSome = true) (h : editWithin keys f ms = .ok ms')
    (hsame : (Json.obj ms').holderAt keys = (Json.obj ms).holderAt keys) : ms' = ms := by
  induction keys generalizing ms ms' with
  | nil => exact hsame
  | cons key keys ih =>
    obtain ⟨inner, hinner, rfl⟩ := editObject_root h
    rw [holderAt_cons, holderAt_cons, find?_putHeld_self] at hsame
    obtain ⟨o, ho⟩ := Option.isSome_iff_exists.mp hheld
    obtain ⟨v, hv, ho⟩ := Option.bind_eq_some_iff.mp ho
    have hfound : find? ms key = some v := hv
    obtain ⟨held, rfl⟩ : ∃ held, v = .obj held := by
      cases v with
      | obj held => exact ⟨held, rfl⟩
      | _ => cases keys <;> simp [objectAt?, members?, member?] at ho
    rw [hfound] at hinner hsame
    obtain rfl : inner = held := by
      refine ih (fun front hfront o' ho' => ?_) (by rw [ho]; rfl) hinner hsame
      refine hs (key :: front) ((List.prefix_cons_inj key).mpr hfront) o' ?_
      simpa [objectAt?, hv] using ho'
    refine putHeld_of_find? (hs [] List.nil_prefix ms rfl) hfound

end

/-! ### Objects at a place -/

namespace MembersRule.Holds

variable {P : Members Json → Prop} {ms : Members Json} {keys : List String} {name : String}

theorem found (h : Holds P (sameName "schemas") ms) (hne : sameName "schemas" name = false)
    {v : Json} (hf : find? ms name = some v) : AllObjects P v := by
  obtain ⟨key, hs, hm⟩ := mem_of_find? hf
  exact h.2 _ hm (not_same_of_same hne hs)

/-- Names that do not lead into the list of schemas lead to an object with the property. -/
theorem objectAt (h : Holds P (sameName "schemas") ms)
    (hkeys : ∀ key ∈ keys.head?, sameName "schemas" key = false) {o : Members Json}
    (ho : (Json.obj ms).objectAt? keys = some o) : P o := by
  cases keys with
  | nil =>
    obtain rfl : ms = o := by simpa [objectAt?, members?] using ho
    exact h.1
  | cons key keys =>
    obtain ⟨v, hv, ho⟩ := Option.bind_eq_some_iff.mp ho
    exact (allObjects_obj.mp ((h.found (hkeys key rfl) hv).objectAt ho)).1

/-- So have the objects in a list that is held at another place than that of the schemas. -/
theorem listAt (h : Holds P (sameName "schemas") ms)
    (hplace : apart ["schemas"] (keys ++ [name]) = true) :
    ∀ v ∈ Members.listAt ((Json.obj ms).holderAt keys) name, AllObjects P v := by
  intro v hv
  have hlist {o : Members Json} (ho : ∀ w, find? o name = some w → AllObjects P w)
      (hmem : v ∈ Members.listAt o name) : AllObjects P v := by
    unfold Members.listAt at hmem
    cases hf : find? o name with
    | none => simp [hf] at hmem
    | some w =>
      cases w with
      | arr items => exact allObjects_arr.mp (ho _ hf) v (by simpa [hf, items?] using hmem)
      | _ => simp [hf, items?] at hmem
  cases keys with
  | nil =>
    rw [List.nil_append, apart_singleton, Bool.not_eq_true'] at hplace
    exact hlist (fun w => h.found hplace) hv
  | cons key keys =>
    rw [List.cons_append, apart_singleton, Bool.not_eq_true'] at hplace
    refine hlist (fun w hw => ?_) hv
    cases ho : (Json.obj ms).objectAt? (key :: keys) with
    | none => simp [holderAt, ho, find?, key?, Members.keys, Members.get?] at hw
    | some o =>
      rw [holderAt, ho, Option.getD_some] at hw
      obtain ⟨inner, hinner, ho⟩ := Option.bind_eq_some_iff.mp ho
      have hall := (h.found hplace hinner).objectAt ho
      obtain ⟨k, -, hk⟩ := mem_of_find? hw
      exact (allObjects_obj.mp hall).2 _ hk

end MembersRule.Holds

end Roster
