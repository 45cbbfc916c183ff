import Mathlib.Data.List.Sort
import Roster.Proofs.Members.Order
import Roster.Proofs.Store

/-! The order in which resources have been inserted. No two entries of a kind have the same number,
so that a list of resources is in this order: a resource that is inserted comes last, and one that
is put in the place of another keeps its place. -/

namespace Roster

namespace Members

variable {α : Type} {ms : Members α} {key : String} {value : α}

theorem insert_perm (value : α) (h : get? ms key = none) :
    (insert ms key value).Perm ((key, value) :: ms) := by
  induction ms with
  | nil => exact .refl _
  | cons m rest ih =>
    obtain ⟨k, v⟩ := m
    rw [get?] at h
    split_ifs at h with hk
    rw [insert, if_neg (Ne.symm hk)]
    split_ifs
    · exact .refl _
    · exact ((ih h).cons _).trans (.swap _ _ _)

/-- A value that is put under a name that is held takes the place of the other. -/
theorem insert_eq_map (value : α) (hs : Sorted ms) (h : (get? ms key).isSome = true) :
    insert ms key value = ms.map fun m => if m.1 = key then (key, value) else m := by
  refine ext_get? (sorted_insert _ _ hs) ?_ fun other => ?_
  · refine List.pairwise_map.mpr (hs.imp fun {a b} hlt => ?_)
    have hname (m : String × α) : (if m.1 = key then (key, value) else m).1 = m.1 := by
      split_ifs with hm
      · exact hm.symm
      · rfl
    rwa [hname, hname]
  · have hget : get? (ms.map fun m => if m.1 = key then (key, value) else m) other =
        (get? ms other).map fun v => if other = key then value else v := by
      clear hs h
      induction ms with
      | nil => rfl
      | cons m rest ih =>
        obtain ⟨k, v⟩ := m
        by_cases hk : k = key
        · subst hk
          by_cases ho : k = other
          · subst ho
            simp [get?]
          · simpa [get?, ho] using ih
        · by_cases ho : k = other
          · subst ho
            simp [get?, hk]
          · simpa [get?, hk, ho] using ih
    rw [hget]
    by_cases ho : other = key
    · subst ho
      obtain ⟨v, hv⟩ := Option.isSome_iff_exists.mp h
      rw [get?_insert_self, hv]
      simp
    · rw [get?_insert_of_ne _ _ ho]
      simp [ho]

end Members

namespace Store

variable {st st' : Store} {kind other : Kind} {id : String} {v : Json}

/-- The entries of a kind in the order of their numbers. -/
def ordered (st : Store) (kind : Kind) : List (String × Entry) :=
  (st.entries kind).mergeSort fun a b => a.2.number ≤ b.2.number

/-- The identifiers of the stored resources of a kind, in the order of their insertion. -/
def order (st : Store) (kind : Kind) : List String :=
  (st.ordered kind).map (·.1)

/-- The entries of each kind have different numbers, all of which have been given out. -/
structure Numbered (st : Store) : Prop where
  sorted : ∀ kind, Members.Sorted (st.entries kind)
  distinct : ∀ kind, (st.entries kind).Pairwise fun a b => a.2.number ≠ b.2.number
  given : ∀ kind, ∀ m ∈ st.entries kind, m.2.number < st.next

theorem numbered_empty : Numbered empty where
  sorted kind := by cases kind <;> exact List.Pairwise.nil
  distinct kind := by cases kind <;> exact List.Pairwise.nil
  given kind m hm := by cases kind <;> cases hm

theorem order_empty (kind : Kind) : empty.order kind = [] := by
  cases kind <;> simp [order, ordered, entries, empty]

/-! ### The listed resources -/

theorem ordered_perm (st : Store) (kind : Kind) : (st.ordered kind).Perm (st.entries kind) :=
  List.mergeSort_perm _ _

theorem Numbered.ordered_lt (h : st.Numbered) (kind : Kind) :
    (st.ordered kind).Pairwise fun a b => a.2.number < b.2.number := by
  have hle : (st.ordered kind).Pairwise fun a b => a.2.number ≤ b.2.number := by
    refine (List.pairwise_mergeSort (fun a b c hab hbc => ?_) (fun a b => ?_)
      (st.entries kind)).imp fun {a b} hab => of_decide_eq_true hab
    · simp only [decide_eq_true_eq] at hab hbc ⊢
      exact hab.trans hbc
    · simp only [Bool.or_eq_true, decide_eq_true_eq]
      exact le_total _ _
  have hne : (st.ordered kind).Pairwise fun a b => a.2.number ≠ b.2.number :=
    ((st.ordered_perm kind).pairwise_iff fun hab => Ne.symm hab).mpr (h.distinct kind)
  exact (hle.and hne).imp fun hab => lt_of_le_of_ne hab.1 hab.2

/-- The entries stand in only one order of increasing numbers. -/
theorem ordered_eq (h : st.Numbered) {entries : List (String × Entry)}
    (hperm : entries.Perm (st.entries kind))
    (hlt : entries.Pairwise fun a b => a.2.number < b.2.number) : st.ordered kind = entries :=
  List.Perm.eq_of_pairwise (fun _ _ _ _ hab hba => absurd hab (lt_asymm hba))
    (h.ordered_lt kind) hlt ((st.ordered_perm kind).trans hperm.symm)

theorem mem_order : id ∈ st.order kind ↔ (st.get? kind id).isSome = true := by
  rw [order, ((st.ordered_perm kind).map _).mem_iff, get?, Option.isSome_map,
    Members.isSome_get?]
  rfl

theorem Numbered.nodup_order (h : st.Numbered) (kind : Kind) : (st.order kind).Nodup :=
  ((st.ordered_perm kind).map _).nodup_iff.mpr (Members.nodup_keys (h.sorted kind))

theorem resources_eq (st : Store) (kind : Kind) :
    st.resources kind = (st.ordered kind).map fun m => m.2.resource := by
  have hmap : ((st.entries kind).map (·.2)).mergeSort (fun a b => a.number ≤ b.number) =
      (st.ordered kind).map (·.2) :=
    (List.map_mergeSort (f := Prod.snd) fun _ _ _ _ => rfl).symm
  rw [resources, hmap, List.map_map]
  rfl

/-- Resources are listed in the order of their insertion. -/
theorem list_eq (h : st.Numbered) (kind : Kind) :
    st.list kind none = (st.order kind).filterMap (st.get? kind) := by
  have hget : ∀ m ∈ st.ordered kind, st.get? kind m.1 = some m.2.resource := by
    intro m hm
    have hmem : m ∈ st.entries kind := (st.ordered_perm kind).mem_iff.mp hm
    simp [get?, Members.get?_of_mem (h.sorted kind) hmem]
  have hlist : st.list kind none = (st.ordered kind).map fun m => m.2.resource := by
    simp [list, resources_eq]
  rw [hlist, order, List.filterMap_map, ← List.filterMap_eq_map]
  exact List.filterMap_congr fun m hm => (hget m hm).symm

/-! ### Changes -/

theorem insert_next (h : st.insert kind v = .ok st') : st'.next = st.next + 1 := by
  unfold insert at h
  split at h
  · simp at h
  · rw [guard_eq_ok] at h
    cases h.2
    rfl

theorem next_withEntries (st : Store) (kind : Kind) (entries : Members Entry) :
    (st.withEntries kind entries).next = st.next := by
  cases kind <;> rfl

/-- An entry keeps its number when its resource is replaced. -/
theorem update_entries (h : st.update kind id v = .ok st') : ∃ e,
    (st.entries kind).get? id = some e ∧
      st'.entries kind = (st.entries kind).insert id { e with resource := v } ∧
      st'.next = st.next ∧ ∀ other, other ≠ kind → st'.entries other = st.entries other := by
  unfold update at h
  split at h
  · simp at h
  · rename_i e he
    cases h
    exact ⟨e, he, entries_withEntries_self _ _ _, next_withEntries _ _ _,
      fun other hne => entries_withEntries_of_ne hne _⟩

theorem delete_next (h : st.delete kind id = .ok st') : st'.next = st.next := by
  unfold delete at h
  split_ifs at h
  cases h
  exact next_withEntries _ _ _

theorem ordered_congr (h : st'.entries kind = st.entries kind) :
    st'.ordered kind = st.ordered kind := by
  rw [ordered, ordered, h]

/-- Other entries of one kind have different numbers again. -/
theorem Numbered.put (h : st.Numbered) {entries : Members Entry}
    (hput : st'.entries kind = entries)
    (hrest : ∀ other, other ≠ kind → st'.entries other = st.entries other)
    (hs : Members.Sorted entries) (hd : entries.Pairwise fun a b => a.2.number ≠ b.2.number)
    (hnext : st.next ≤ st'.next) (hg : ∀ m ∈ entries, m.2.number < st'.next) : st'.Numbered := by
  refine ⟨fun other => ?_, fun other => ?_, fun other m hm => ?_⟩
  · by_cases ho : other = kind
    · rwa [ho, hput]
    · rw [hrest other ho]
      exact h.sorted other
  · by_cases ho : other = kind
    · rwa [ho, hput]
    · rw [hrest other ho]
      exact h.distinct other
  · by_cases ho : other = kind
    · subst ho
      exact hg m (hput ▸ hm)
    · rw [hrest other ho] at hm
      exact (h.given other m hm).trans_le hnext

/-- A resource that is inserted comes last of its kind. -/
theorem ordered_insert (h : st.Numbered) (hi : st.insert kind v = .ok st')
    (hid : v.identifier? = some id) :
    st'.Numbered ∧ st'.ordered kind = st.ordered kind ++ [(id, ⟨st.next, v⟩)] ∧
      ∀ other, other ≠ kind → st'.ordered other = st.ordered other := by
  obtain ⟨id', hid', hfree, hput, hrest⟩ := insert_eq_ok hi
  obtain rfl : id = id' := Option.some.inj (hid.symm.trans hid')
  have hnext : st'.next = st.next + 1 := insert_next hi
  have hnone : (st.entries kind).get? id = none := by simpa [get?] using hfree
  have hperm : ((st.entries kind).insert id ⟨st.next, v⟩).Perm
      ((id, ⟨st.next, v⟩) :: st.entries kind) := Members.insert_perm _ hnone
  have hlast : ∀ m ∈ st.entries kind, m.2.number < st.next := h.given kind
  have hnumbered : st'.Numbered := by
    refine h.put hput hrest (Members.sorted_insert _ _ (h.sorted kind)) ?_ (by omega) ?_
    · refine (hperm.pairwise_iff fun hab => Ne.symm hab).mpr
        (List.pairwise_cons.mpr ⟨fun m hm => ?_, h.distinct kind⟩)
      exact (hlast m hm).ne'
    · intro m hm
      rcases List.mem_cons.mp (hperm.mem_iff.mp hm) with rfl | hm
      · change st.next < st'.next
        omega
      · have := hlast m hm
        omega
  refine ⟨hnumbered, ?_, fun other ho => ordered_congr (hrest other ho)⟩
  refine ordered_eq hnumbered ?_ (List.pairwise_append.mpr
    ⟨h.ordered_lt kind, List.pairwise_singleton _ _, fun a ha b hb => ?_⟩)
  · rw [hput]
    exact (((st.ordered_perm kind).append_right _).trans
      (List.perm_append_singleton _ _)).trans hperm.symm
  · rw [List.mem_singleton.mp hb]
    exact hlast a ((st.ordered_perm kind).mem_iff.mp ha)

theorem order_insert (h : st.Numbered) (hi : st.insert kind v = .ok st')
    (hid : v.identifier? = some id) : st'.Numbered ∧ st'.order kind = st.order kind ++ [id] ∧
      ∀ other, other ≠ kind → st'.order other = st.order other := by
  obtain ⟨hnumbered, hordered, hrest⟩ := ordered_insert h hi hid
  refine ⟨hnumbered, ?_, fun other ho => congrArg (List.map Prod.fst) (hrest other ho)⟩
  rw [order, hordered, List.map_append]
  rfl

/-- The entry with another resource, if it is the one of an identifier. -/
def renewed (id : String) (v : Json) (m : String × Entry) : String × Entry :=
  if m.1 = id then (m.1, { m.2 with resource := v }) else m

@[simp] theorem renewed_name (id : String) (v : Json) (m : String × Entry) :
    (renewed id v m).1 = m.1 := by
  unfold renewed
  split_ifs <;> rfl

@[simp] theorem renewed_number (id : String) (v : Json) (m : String × Entry) :
    (renewed id v m).2.number = m.2.number := by
  unfold renewed
  split_ifs <;> rfl

/-- A resource that is put in the place of another keeps its place. -/
theorem ordered_update (h : st.Numbered) (hu : st.update kind id v = .ok st') :
    st'.Numbered ∧ st'.ordered kind = (st.ordered kind).map (renewed id v) ∧
      ∀ other, other ≠ kind → st'.ordered other = st.ordered other := by
  obtain ⟨e, he, hput, hnext, hrest⟩ := update_entries hu
  have hmap : (st.entries kind).insert id { e with resource := v } =
      (st.entries kind).map (renewed id v) := by
    rw [Members.insert_eq_map _ (h.sorted kind) (by rw [he]; rfl)]
    refine List.map_congr_left fun m hm => ?_
    unfold renewed
    by_cases hid : m.1 = id
    · -- what stands under the identifier is the entry that is found there
      have hheld := Members.get?_of_mem (h.sorted kind) hm
      rw [hid, he] at hheld
      rw [if_pos hid, if_pos hid, hid, Option.some.inj hheld]
    · rw [if_neg hid, if_neg hid]
  have hnumbered : st'.Numbered := by
    refine h.put hput hrest (Members.sorted_insert _ _ (h.sorted kind)) ?_ hnext.ge ?_
    · rw [hmap, List.pairwise_map]
      simpa using h.distinct kind
    · intro m hm
      rw [hmap] at hm
      obtain ⟨a, ha, rfl⟩ := List.mem_map.mp hm
      rw [renewed_number, hnext]
      exact h.given kind a ha
  refine ⟨hnumbered, ?_, fun other ho => ordered_congr (hrest other ho)⟩
  refine ordered_eq hnumbered ?_ ?_
  · rw [hput, hmap]
    exact (st.ordered_perm kind).map _
  · rw [List.pairwise_map]
    simpa using h.ordered_lt kind

theorem order_update (h : st.Numbered) (hu : st.update kind id v = .ok st') :
    st'.Numbered ∧ ∀ other, st'.order other = st.order other := by
  obtain ⟨hnumbered, hordered, hrest⟩ := ordered_update h hu
  refine ⟨hnumbered, fun other => ?_⟩
  by_cases ho : other = kind
  · subst ho
    rw [order, hordered, List.map_map]
    exact List.map_congr_left fun m _ => renewed_name id v m
  · exact congrArg (List.map Prod.fst) (hrest other ho)

/-- The other resources keep their places when one is deleted. -/
theorem ordered_delete (h : st.Numbered) (hd : st.delete kind id = .ok st') :
    st'.Numbered ∧ st'.ordered kind = (st.ordered kind).filter (fun m => m.1 ≠ id) ∧
      ∀ other, other ≠ kind → st'.ordered other = st.ordered other := by
  obtain ⟨hput, hrest⟩ := delete_eq_ok hd
  have hsub : ((st.entries kind).erase id).Sublist (st.entries kind) := List.filter_sublist
  have hnumbered : st'.Numbered := by
    refine h.put hput hrest (Members.sorted_erase _ (h.sorted kind))
      ((h.distinct kind).sublist hsub) (delete_next hd).ge fun m hm => ?_
    rw [delete_next hd]
    exact h.given kind m (hsub.subset hm)
  refine ⟨hnumbered, ?_, fun other ho => ordered_congr (hrest other ho)⟩
  refine ordered_eq hnumbered ?_ ((h.ordered_lt kind).sublist List.filter_sublist)
  rw [hput]
  exact (st.ordered_perm kind).filter _

theorem order_delete (h : st.Numbered) (hd : st.delete kind id = .ok st') :
    st'.Numbered ∧ st'.order kind = (st.order kind).filter (· ≠ id) ∧
      ∀ other, other ≠ kind → st'.order other = st.order other := by
  obtain ⟨hnumbered, hordered, hrest⟩ := ordered_delete h hd
  refine ⟨hnumbered, ?_, fun other ho => congrArg (List.map Prod.fst) (hrest other ho)⟩
  rw [order, hordered, order, List.filter_map]
  rfl

end Store

end Roster
