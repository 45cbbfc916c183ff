import Roster.Proofs.Members.Others

/-! Members some of which are dropped, and the others changed in place, by their names. What is
found for a name afterwards depends on what was found for it before. -/

namespace Roster

namespace Members

variable {α β : Type} {f : String × α → Option (String × β)} {ms : Members α} {name key : String}

/-! ### Members that are changed in place -/

theorem get?_map (g : String → α → β) (ms : Members α) (key : String) :
    get? (ms.map fun m => (m.1, g m.1 m.2)) key = (get? ms key).map (g key) := by
  induction ms with
  | nil => rfl
  | cons m rest ih =>
    obtain ⟨k, v⟩ := m
    rw [List.map_cons, get?, get?, ih]
    split_ifs with hk
    · rw [hk, Option.map_some]
    · rfl

theorem keys_map (g : String → α → β) (ms : Members α) :
    keys (ms.map fun m => (m.1, g m.1 m.2)) = keys ms := by
  simp [keys]

theorem key?_map (g : String → α → β) (ms : Members α) (name : String) :
    key? (ms.map fun m => (m.1, g m.1 m.2)) name = key? ms name := by
  rw [key?, key?, get?_map, keys_map, Option.isSome_map]

theorem find?_map (g : α → β) (ms : Members α) (name : String) :
    find? (ms.map fun m => (m.1, g m.2)) name = (find? ms name).map g := by
  rw [find?, find?, key?_map (fun _ => g)]
  cases key? ms name with
  | none => rfl
  | some held => exact get?_map (fun _ => g) ms held

theorem insert_map (g : String → α → β) (ms : Members α) (key : String) (value : α) :
    insert (ms.map fun m => (m.1, g m.1 m.2)) key (g key value) =
      (insert ms key value).map fun m => (m.1, g m.1 m.2) := by
  induction ms with
  | nil => rfl
  | cons m rest ih =>
    obtain ⟨k, v⟩ := m
    rw [List.map_cons, insert, insert, ih]
    split_ifs <;> rfl

theorem ofList_map (g : String → α → β) (pairs : List (String × α)) :
    ofList (pairs.map fun m => (m.1, g m.1 m.2)) =
      (ofList pairs).map fun m => (m.1, g m.1 m.2) := by
  have step (ms : Members α) :
      (pairs.map fun m => (m.1, g m.1 m.2)).foldl (fun ms m => insert ms m.1 m.2)
          (ms.map fun m => (m.1, g m.1 m.2)) =
        (pairs.foldl (fun ms m => insert ms m.1 m.2) ms).map fun m => (m.1, g m.1 m.2) := by
    induction pairs generalizing ms with
    | nil => rfl
    | cons m rest ih =>
      rw [List.map_cons, List.foldl_cons, insert_map, ih, List.foldl_cons]
  exact step []

/-! ### Members that are dropped or changed -/

section Dropped

variable (hkey : ∀ m n, f m = some n → n.1 = m.1)

include hkey

/-- The members of a name that are all kept are those that were under it, as they are changed. -/
theorem under_filterMap {g : α → β}
    (hkept : ∀ m, sameName name m.1 = true → f m = some (m.1, g m.2)) :
    under (ms.filterMap f) name = (under ms name).map fun m => (m.1, g m.2) := by
  unfold under
  induction ms with
  | nil => rfl
  | cons m rest ih =>
    cases hm : sameName name m.1 with
    | true => simp [List.filterMap_cons_some (hkept m hm), hm, ih]
    | false =>
      cases hf : f m with
      | none => simp [List.filterMap_cons_none hf, hm, ih]
      | some n =>
        have hn : sameName name n.1 = false := by rw [hkey m n hf, hm]
        simp [List.filterMap_cons_some hf, hn, hm, ih]

theorem find?_filterMap {g : α → β}
    (hkept : ∀ m, sameName name m.1 = true → f m = some (m.1, g m.2)) :
    find? (ms.filterMap f) name = (find? ms name).map g := by
  rw [← find?_under, under_filterMap hkey hkept, find?_map, find?_under]

/-- A member that is kept is found under its name. -/
theorem get?_filterMap_of_get? {v : α} {w : β} (h : get? ms key = some v)
    (hf : f (key, v) = some (key, w)) : get? (ms.filterMap f) key = some w := by
  induction ms with
  | nil => cases h
  | cons m rest ih =>
    obtain ⟨k, u⟩ := m
    rw [get?] at h
    split_ifs at h with hk
    · subst hk
      cases h
      rw [List.filterMap_cons_some hf, get?, if_pos rfl]
    · cases hfirst : f (k, u) with
      | none => rw [List.filterMap_cons_none hfirst, ih h]
      | some n =>
        have hn : n.1 ≠ key := by rwa [hkey _ _ hfirst]
        rw [List.filterMap_cons_some hfirst, get?, if_neg hn, ih h]

theorem get?_filterMap_eq_none (h : ∀ v, (key, v) ∈ ms → f (key, v) = none) :
    get? (ms.filterMap f) key = none := by
  rw [Option.eq_none_iff_forall_not_mem]
  intro w hw
  obtain ⟨⟨k, v⟩, hmem, hm⟩ := List.mem_filterMap.mp (mem_of_get? hw)
  obtain rfl : key = k := hkey _ _ hm
  rw [h v hmem] at hm
  cases hm

theorem get?_filterMap {g : α → β} (hkept : ∀ v, f (key, v) = some (key, g v)) :
    get? (ms.filterMap f) key = (get? ms key).map g := by
  cases hg : get? ms key with
  | some v => exact get?_filterMap_of_get? hkey hg (hkept v)
  | none =>
    refine get?_filterMap_eq_none hkey fun v hv => ?_
    have hsome : (get? ms key).isSome = true := isSome_get?.mpr (List.mem_map_of_mem hv)
    rw [hg] at hsome
    cases hsome

/-- A member that is put among members in order is put among those of them that are kept. -/
theorem insert_filterMap {value : α} {w : β} (hs : Sorted ms)
    (hkept : f (key, value) = some (key, w)) :
    (insert ms key value).filterMap f = insert (ms.filterMap f) key w := by
  have hfront {rest : Members α} (hrest : ∀ m ∈ rest, key < m.1) :
      insert (rest.filterMap f) key w = (key, w) :: rest.filterMap f := by
    cases hc : rest.filterMap f with
    | nil => rfl
    | cons n others =>
      obtain ⟨m, hm, hn⟩ := List.mem_filterMap.mp (hc ▸ List.mem_cons_self : n ∈ rest.filterMap f)
      have hlt : key < n.1 := hkey m n hn ▸ hrest m hm
      rw [insert, if_neg hlt.ne, if_pos hlt]
  induction ms with
  | nil => rw [insert, List.filterMap_cons_some hkept]; rfl
  | cons m rest ih =>
    obtain ⟨k, v⟩ := m
    obtain ⟨hlt, hrest⟩ := List.pairwise_cons.mp hs
    rw [insert]
    split_ifs with heq hlow
    · -- the member of this name is replaced, whether or not it was kept itself
      subst heq
      rw [List.filterMap_cons_some hkept]
      cases hf : f (key, v) with
      | none => rw [List.filterMap_cons_none hf, hfront hlt]
      | some n =>
        obtain ⟨k, u⟩ := n
        obtain rfl : k = key := hkey _ _ hf
        rw [List.filterMap_cons_some hf, insert, if_pos rfl]
    · rw [List.filterMap_cons_some hkept, hfront]
      rintro m (_ | ⟨_, hm⟩)
      · exact hlow
      · exact String.lt_trans hlow (hlt m hm)
    · cases hf : f (k, v) with
      | none => rw [List.filterMap_cons_none hf, List.filterMap_cons_none hf, ih hrest]
      | some n =>
        obtain ⟨j, u⟩ := n
        obtain rfl : j = k := hkey _ _ hf
        rw [List.filterMap_cons_some hf, List.filterMap_cons_some hf, insert, if_neg heq,
          if_neg hlow, ih hrest]

end Dropped

end Members

end Roster
