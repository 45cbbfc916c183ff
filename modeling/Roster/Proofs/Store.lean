import Roster.Proofs.Json
import Roster.Proofs.Success
import Roster.Store.Basic

/-! The store after a change: what is found under each identifier, and that a property of the
stored resources is kept when every resource that is put has it. -/

namespace Roster

namespace Store

variable {s s' : Store} {kind other : Kind} {id : String} {v : Json}

@[simp] theorem entries_withEntries_self (s : Store) (kind : Kind) (entries : Members Entry) :
    (s.withEntries kind entries).entries kind = entries := by
  cases kind <;> rfl

theorem entries_withEntries_of_ne (h : other ≠ kind) (entries : Members Entry) :
    (s.withEntries kind entries).entries other = s.entries other := by
  cases kind <;> cases other <;> first | rfl | exact absurd rfl h

/-! ### Changes -/

theorem insert_eq_ok (h : s.insert kind v = .ok s') :
    ∃ id, v.identifier? = some id ∧ s.get? kind id = none ∧
      s'.entries kind = (s.entries kind).insert id ⟨s.next, v⟩ ∧
      ∀ other, other ≠ kind → s'.entries other = s.entries other := by
  unfold insert at h
  split at h
  · simp at h
  · rename_i id hid
    rw [guard_eq_ok] at h
    obtain ⟨hnone, h⟩ := h
    cases h
    refine ⟨id, hid, by simpa using hnone, ?_, fun other hne => ?_⟩
    · cases kind <;> rfl
    · cases kind <;> cases other <;> first | rfl | exact absurd rfl hne

theorem update_eq_ok (h : s.update kind id v = .ok s') :
    (s.get? kind id).isSome = true ∧
      (∃ number, s'.entries kind = (s.entries kind).insert id ⟨number, v⟩) ∧
      ∀ other, other ≠ kind → s'.entries other = s.entries other := by
  unfold update at h
  split at h
  · simp at h
  · rename_i e he
    cases h
    refine ⟨by simp [get?, he], ⟨e.number, ?_⟩, fun other hne => ?_⟩
    · exact entries_withEntries_self _ _ _
    · exact entries_withEntries_of_ne hne _

/-- A resource that is stored can be replaced. -/
theorem exists_update (h : (s.get? kind id).isSome = true) (v : Json) :
    ∃ s', s.update kind id v = .ok s' := by
  unfold get? at h
  rw [Option.isSome_map] at h
  obtain ⟨e, he⟩ := Option.isSome_iff_exists.mp h
  simp [update, he]

theorem delete_eq_ok (h : s.delete kind id = .ok s') :
    s'.entries kind = (s.entries kind).erase id ∧
      ∀ other, other ≠ kind → s'.entries other = s.entries other := by
  unfold delete at h
  split_ifs at h
  cases h
  exact ⟨entries_withEntries_self _ _ _, fun other hne => entries_withEntries_of_ne hne _⟩

theorem get?_of_entries_eq (h : s'.entries kind = s.entries kind) (id : String) :
    s'.get? kind id = s.get? kind id := by
  simp [get?, h]

/-- What is found after one resource is put. -/
theorem get?_put {number : Nat}
    (hput : s'.entries kind = (s.entries kind).insert id ⟨number, v⟩)
    (hrest : ∀ other, other ≠ kind → s'.entries other = s.entries other) (k : Kind) (i : String) :
    s'.get? k i = if k = kind ∧ i = id then some v else s.get? k i := by
  by_cases hk : k = kind
  · subst hk
    by_cases hi : i = id
    · simp [get?, hput, hi, Members.get?_insert_self]
    · simp [get?, hput, hi, Members.get?_insert_of_ne]
  · simp [hk, get?_of_entries_eq (hrest k hk)]

theorem get?_insert (h : s.insert kind v = .ok s') (hid : v.identifier? = some id) (k : Kind)
    (i : String) : s'.get? k i = if k = kind ∧ i = id then some v else s.get? k i := by
  obtain ⟨id', hid', -, hput, hrest⟩ := insert_eq_ok h
  obtain rfl : id = id' := Option.some.inj (hid.symm.trans hid')
  exact get?_put hput hrest k i

theorem get?_update (h : s.update kind id v = .ok s') (k : Kind) (i : String) :
    s'.get? k i = if k = kind ∧ i = id then some v else s.get? k i := by
  obtain ⟨-, ⟨number, hput⟩, hrest⟩ := update_eq_ok h
  exact get?_put hput hrest k i

theorem get?_delete (h : s.delete kind id = .ok s') (k : Kind) (i : String) :
    s'.get? k i = if k = kind ∧ i = id then none else s.get? k i := by
  obtain ⟨herase, hrest⟩ := delete_eq_ok h
  by_cases hk : k = kind
  · subst hk
    by_cases hi : i = id
    · simp [get?, herase, hi, Members.get?_erase_self]
    · simp [get?, herase, hi, Members.get?_erase_of_ne]
  · simp [hk, get?_of_entries_eq (hrest k hk)]

/-! ### Properties of all stored resources -/

/-- Entries are in the order of their identifiers, and each resource has a property. -/
structure All (P : Kind → String → Json → Prop) (s : Store) : Prop where
  sorted : ∀ kind, Members.Sorted (s.entries kind)
  each : ∀ kind id v, s.get? kind id = some v → P kind id v

variable {P Q : Kind → String → Json → Prop}

theorem all_empty (P : Kind → String → Json → Prop) : All P empty where
  sorted kind := by cases kind <;> exact List.Pairwise.nil
  each kind id v h := by cases kind <;> simp [get?, entries, empty, Members.get?] at h

theorem sorted_put {number : Nat} (hs : ∀ k, Members.Sorted (s.entries k))
    (hput : s'.entries kind = (s.entries kind).insert id ⟨number, v⟩)
    (hrest : ∀ other, other ≠ kind → s'.entries other = s.entries other) :
    ∀ k, Members.Sorted (s'.entries k) := by
  intro k
  by_cases hk : k = kind
  · subst hk
    rw [hput]
    exact Members.sorted_insert _ _ (hs k)
  · rw [hrest k hk]
    exact hs k

theorem All.put {number : Nat} (h : s.All P)
    (hput : s'.entries kind = (s.entries kind).insert id ⟨number, v⟩)
    (hrest : ∀ other, other ≠ kind → s'.entries other = s.entries other) (hv : P kind id v) :
    s'.All P := by
  refine ⟨sorted_put h.sorted hput hrest, fun k i w hw => ?_⟩
  rw [get?_put hput hrest] at hw
  split_ifs at hw with heq
  · obtain ⟨rfl, rfl⟩ := heq
    cases hw
    exact hv
  · exact h.each k i w hw

theorem All.insert (h : s.All P) (hi : s.insert kind v = .ok s')
    (hv : ∀ id, v.identifier? = some id → P kind id v) : s'.All P := by
  obtain ⟨id, hid, -, hput, hrest⟩ := insert_eq_ok hi
  exact h.put hput hrest (hv id hid)

theorem All.update (h : s.All P) (hu : s.update kind id v = .ok s') (hv : P kind id v) :
    s'.All P := by
  obtain ⟨-, ⟨number, hput⟩, hrest⟩ := update_eq_ok hu
  exact h.put hput hrest hv

theorem All.delete (h : s.All P) (hd : s.delete kind id = .ok s') : s'.All P := by
  obtain ⟨herase, hrest⟩ := delete_eq_ok hd
  refine ⟨fun k => ?_, fun k i w hw => ?_⟩
  · by_cases hk : k = kind
    · subst hk
      rw [herase]
      exact Members.sorted_erase _ (h.sorted k)
    · rw [hrest k hk]
      exact h.sorted k
  · rw [get?_delete hd] at hw
    split_ifs at hw
    exact h.each k i w hw

/-- The listed resources are the stored ones. -/
theorem mem_list (hs : ∀ k, Members.Sorted (s.entries k)) :
    v ∈ s.list kind none ↔ ∃ id, s.get? kind id = some v := by
  have hlist : v ∈ s.list kind none ↔
      ∃ e, (∃ id, (id, e) ∈ s.entries kind) ∧ e.resource = v := by
    simp [list, resources, List.mem_map, List.mem_mergeSort]
  rw [hlist]
  constructor
  · -- identifiers are in order, so that an entry is the one found under its own
    rintro ⟨e, ⟨id, hm⟩, rfl⟩
    exact ⟨id, by simp [get?, Members.get?_of_mem (hs kind) hm]⟩
  · rintro ⟨id, hid⟩
    obtain ⟨e, he, rfl⟩ := Option.map_eq_some_iff.mp hid
    exact ⟨e, ⟨id, Members.mem_of_get? he⟩, rfl⟩

end Store

end Roster
