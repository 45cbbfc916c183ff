import Roster.Patch.Apply
import Roster.Proofs.Members
import Roster.Proofs.Success

/-! What edits of an object and of its lists leave: the edited value is put back under the name by
which it is held, and a list that is edited at some indices keeps its length. -/

namespace Roster

namespace Members

/-- Puts a value under the name by which `name` is held. -/
def putHeld (ms : Members Json) (name : String) (v : Json) : Members Json :=
  insert ms ((key? ms name).getD name) v

/-- The list held for a name, empty where there is none. -/
def listAt (ms : Members Json) (name : String) : List Json :=
  ((find? ms name).bind Json.items?).getD []

theorem get?_heldKey (ms : Members Json) (name : String) :
    get? ms ((key? ms name).getD name) = find? ms name := by
  cases hk : key? ms name with
  | some key => simp [find?, hk]
  | none =>
    have hn : get? ms name = none := by
      by_contra hne
      simp [key?, Option.isSome_iff_ne_none.mpr hne] at hk
    simp [find?, hk, hn]

theorem heldKey_sameName (ms : Members Json) (name : String) :
    sameName name ((key? ms name).getD name) = true := by
  cases hk : key? ms name with
  | none => simp
  | some key => exact key?_sameName hk

/-- What every member has to satisfy is kept by putting a value under any spelling of a name. -/
theorem forall_putHeld {P : String × Json → Prop} {ms : Members Json} {name : String} {v : Json}
    (hms : ∀ m ∈ ms, P m) (hnew : ∀ key, sameName name key = true → P (key, v)) :
    ∀ m ∈ putHeld ms name v, P m :=
  forall_insert hms (hnew _ (heldKey_sameName ms name))

/-- A value is put under the name itself or under a spelling of it that is there. -/
theorem heldKey_eq_or_mem (ms : Members Json) (name : String) :
    (key? ms name).getD name = name ∨ (key? ms name).getD name ∈ keys ms := by
  cases hk : key? ms name with
  | none => exact .inl rfl
  | some key => exact .inr (key?_mem hk)

theorem get?_putHeld_of_not_same {ms : Members Json} {name other : String} (v : Json)
    (h : sameName name other = false) : get? (putHeld ms other v) name = get? ms name := by
  refine get?_insert_of_ne ms v ?_
  rintro rfl
  have hs := heldKey_sameName ms other
  rw [sameName_comm, h] at hs
  cases hs

theorem exists_mem_putHeld (ms : Members Json) (name : String) (v : Json) :
    ∃ key, sameName name key = true ∧ (key, v) ∈ putHeld ms name v :=
  ⟨_, heldKey_sameName ms name, mem_of_get? (get?_insert_self ms _ v)⟩

/-- A name that is found is still found when a value is put under any name. -/
theorem find?_putHeld_isSome {ms : Members Json} {name other : String} (v : Json)
    (h : (find? ms name).isSome = true) : (find? (putHeld ms other v) name).isSome = true := by
  obtain ⟨key, hk, hs⟩ := find?_isSome.mp h
  exact find?_isSome.mpr ⟨key, (mem_keys_insert v).mpr (.inr hk), hs⟩

theorem find?_set_isSome {ms : Members Json} {name other : String} (v : Json)
    (h : (find? ms name).isSome = true) : (find? (set ms other v) name).isSome = true := by
  cases hs : sameName name other with
  | false => rwa [find?_set_of_not_same v hs]
  | true =>
    refine find?_isSome.mpr ⟨other, ?_, hs⟩
    exact isSome_get?.mp (by rw [get?_set_self]; rfl)

theorem edit_eq_ok {name : String} {f : Edit Json} {ms ms' : Members Json} :
    edit name f ms = .ok ms' ↔
      ∃ v, f ((find? ms name).getD .null) = .ok v ∧ putHeld ms name v = ms' := by
  simp only [edit, get?_heldKey, map_eq_ok, putHeld]

/-- An edited list is the one held, or empty where null or nothing is held. -/
theorem editList_eq_ok {name : String} {f : Edit (List Json)} {ms ms' : Members Json}
    (h : editList name f ms = .ok ms') :
    ∃ items, f (listAt ms name) = .ok items ∧ putHeld ms name (.arr items) = ms' := by
  obtain ⟨v, hv, rfl⟩ := edit_eq_ok.mp h
  unfold listAt
  cases hf : find? ms name with
  | none =>
    obtain ⟨items, hi, rfl⟩ := map_eq_ok.mp (by simpa [hf, Json.editList] using hv)
    exact ⟨items, hi, rfl⟩
  | some held =>
    cases held with
    | null | arr held =>
      obtain ⟨items, hi, rfl⟩ := map_eq_ok.mp (by simpa [hf, Json.editList] using hv)
      exact ⟨items, hi, rfl⟩
    | _ => simp [hf, Json.editList] at hv

theorem editHeldList_eq_ok {name : String} {f : Edit (List Json)} {ms ms' : Members Json}
    (h : editHeldList name f ms = .ok ms') :
    ms' = ms ∨ ∃ items, f (listAt ms name) = .ok items ∧ putHeld ms name (.arr items) = ms' := by
  unfold editHeldList at h
  split at h
  · exact .inr (editList_eq_ok h)
  · cases h
    exact .inl rfl

/-- An edited object is the one held, or empty where null or nothing is held. -/
theorem editObject_eq_ok {name : String} {f : Edit (Members Json)} {ms ms' : Members Json}
    (h : editObject name f ms = .ok ms') :
    ∃ held inner, (find? ms name = some (.obj held) ∨ held = []) ∧ f held = .ok inner ∧
      putHeld ms name (.obj inner) = ms' := by
  obtain ⟨v, hv, rfl⟩ := edit_eq_ok.mp h
  cases hf : find? ms name with
  | none =>
    obtain ⟨inner, hi, rfl⟩ := map_eq_ok.mp (by simpa [hf, Json.editObject] using hv)
    exact ⟨[], inner, .inr rfl, hi, rfl⟩
  | some held =>
    cases held with
    | null =>
      obtain ⟨inner, hi, rfl⟩ := map_eq_ok.mp (by simpa [hf, Json.editObject] using hv)
      exact ⟨[], inner, .inr rfl, hi, rfl⟩
    | obj held =>
      obtain ⟨inner, hi, rfl⟩ := map_eq_ok.mp (by simpa [hf, Json.editObject] using hv)
      exact ⟨held, inner, .inl rfl, hi, rfl⟩
    | _ => simp [hf, Json.editObject] at hv

/-- Members in order, with a name in its one spelling, replace what is looked up for the name or
leave it. -/
theorem look_setAll (look : Members Json → Option Json) {name : String}
    (hself : ∀ ms v, look (set ms name v) = some v)
    (hother : ∀ {other}, sameName name other = false → ∀ ms v, look (set ms other v) = look ms)
    {incoming : Members Json} (hs : Sorted incoming)
    (hspell : ∀ k ∈ keys incoming, sameName name k = true → k = name) (ms : Members Json) :
    look (setAll ms incoming) = (get? incoming name).or (look ms) := by
  induction incoming generalizing ms with
  | nil => rfl
  | cons m rest ih =>
    obtain ⟨key, v⟩ := m
    obtain ⟨hlt, hrest⟩ := List.pairwise_cons.mp hs
    have hnext := ih hrest (fun k hk => hspell k (List.mem_cons_of_mem _ hk)) (set ms key v)
    refine hnext.trans ?_
    cases hsame : sameName name key with
    | true =>
      obtain rfl := hspell key List.mem_cons_self hsame
      -- the names are in order, so that no later member has this one again
      have hnone : get? rest key = none := by
        rw [← Option.not_isSome_iff_eq_none, isSome_get?]
        intro hmem
        obtain ⟨m, hm, heq⟩ := List.mem_map.mp hmem
        exact absurd (hlt m hm) (by simp [heq])
      simp [hnone, hself, get?]
    | false =>
      have hne : key ≠ name := (ne_of_not_same hsame).symm
      simp [hother hsame, get?, hne]

theorem find?_setAll {incoming : Members Json} (hs : Sorted incoming) {name : String}
    (hspell : ∀ k ∈ keys incoming, sameName name k = true → k = name) (ms : Members Json) :
    find? (setAll ms incoming) name = (get? incoming name).or (find? ms name) :=
  look_setAll (find? · name) (fun ms v => find?_set_self ms name v)
    (fun h _ v => find?_set_of_not_same v h) hs hspell ms

end Members

/-- The members of a value, none where it is not an object. -/
def Json.root (v : Json) : Members Json :=
  v.members?.getD []

theorem Json.member?_eq_find? (v : Json) (name : String) :
    v.member? name = Members.find? v.root name := by
  cases v <;> rfl

theorem Json.eq_null {v : Json} (h : v.isNull = true) : v = .null := by
  cases v <;> simp_all [Json.isNull]

theorem Json.isNull_of_ne {v : Json} (h : v ≠ .null) : v.isNull = false :=
  Bool.eq_false_iff.mpr fun hnull => h (eq_null hnull)

/-- An edited value is an object. It was one, or null in place of an empty one. -/
theorem Json.editObject_eq_ok {name : String} {f : Edit (Members Json)} {v w : Json}
    (h : Json.editObject name f v = .ok w) :
    ∃ members, f v.root = .ok members ∧ w = .obj members := by
  cases v with
  | null | obj held =>
    obtain ⟨members, hm, rfl⟩ := map_eq_ok.mp h
    exact ⟨members, hm, rfl⟩
  | _ => simp [Json.editObject] at h

/-! ### Edits at some indices -/

theorem editSelected_cons {selected : Nat → Bool} {f : Edit Json} {start : Nat} {v : Json}
    {rest items' : List Json} (h : editSelected selected f start (v :: rest) = .ok items') :
    ∃ w rest', (if selected start then f v = .ok w else w = v) ∧
      editSelected selected f (start + 1) rest = .ok rest' ∧ items' = w :: rest' := by
  rw [editSelected] at h
  split_ifs at h with hs
  · obtain ⟨w, hw, h⟩ := bind_eq_ok.mp h
    obtain ⟨rest', hr, h⟩ := bind_eq_ok.mp h
    cases h
    exact ⟨w, rest', by simpa [hs] using hw, hr, rfl⟩
  · obtain ⟨w, hw, h⟩ := bind_eq_ok.mp h
    obtain ⟨rest', hr, h⟩ := bind_eq_ok.mp h
    cases hw
    cases h
    exact ⟨v, rest', by simp [hs], hr, rfl⟩

theorem forall_editSelected {E : Json → Prop} {selected : Nat → Bool} {f : Edit Json}
    {start : Nat} {items items' : List Json} (hf : ∀ v w, E v → f v = .ok w → E w)
    (h : editSelected selected f start items = .ok items') (hi : ∀ v ∈ items, E v) :
    ∀ v ∈ items', E v := by
  induction items generalizing start items' with
  | nil =>
    cases h
    simp
  | cons v rest ih =>
    obtain ⟨w, rest', hw, hr, rfl⟩ := editSelected_cons h
    obtain ⟨hv, hrest⟩ := List.forall_mem_cons.mp hi
    refine List.forall_mem_cons.mpr ⟨?_, ih hr hrest⟩
    split_ifs at hw
    · exact hf v w hv hw
    · exact hw ▸ hv

/-- Editing every value of a list is editing it at all indices. -/
theorem mapM_eq_editSelected (f : Edit Json) (start : Nat) (items : List Json) :
    items.mapM f = editSelected (fun _ => true) f start items := by
  induction items generalizing start with
  | nil => rfl
  | cons v rest ih =>
    rw [List.mapM_cons, ih (start + 1)]
    rfl

theorem demoteOthers_all (items : List Json) : demoteOthers (fun _ => true) items = items := by
  apply List.ext_getElem <;> simp [demoteOthers]

theorem forall_demoteOthers {E : Json → Prop} {kept : Nat → Bool} {items : List Json}
    (hd : ∀ v, E v → E v.demoted) (hi : ∀ v ∈ items, E v) : ∀ v ∈ demoteOthers kept items, E v := by
  intro v hv
  obtain ⟨i, hlt, rfl⟩ := List.mem_mapIdx.mp hv
  have := hi _ (List.getElem_mem hlt)
  split_ifs
  · exact this
  · exact hd _ this

theorem forall_appendElement {E : Json → Prop} {items : List Json} {v : Json}
    (hd : ∀ v, E v → E v.demoted) (hi : ∀ v ∈ items, E v) (hv : E v) :
    ∀ w ∈ appendElement items v, E w := by
  unfold appendElement
  split_ifs
  · exact hi
  · intro w hw
    simp only [List.mem_append, List.mem_map, List.mem_singleton] at hw
    rcases hw with ⟨u, hu, rfl⟩ | rfl
    · exact hd u (hi u hu)
    · exact hv
  · intro w hw
    simp only [List.mem_append, List.mem_singleton] at hw
    rcases hw with hw | rfl
    · exact hi w hw
    · exact hv

theorem dropRepeats_sublist (items : List Json) : (dropRepeats items).Sublist items := by
  have step (rest kept front : List Json) (hk : kept.Sublist front) :
      (rest.foldl (fun kept v => if kept.any (·.same v) then kept else kept ++ [v]) kept).Sublist
        (front ++ rest) := by
    induction rest generalizing kept front with
    | nil => simpa using hk
    | cons v rest ih =>
      rw [List.foldl_cons, List.append_cons front]
      refine ih _ _ ?_
      split_ifs
      · exact hk.trans (List.sublist_append_left front [v])
      · exact hk.append (List.Sublist.refl [v])
  exact step items [] [] (List.Sublist.refl [])

theorem dropSelected_sublist (selected : Nat → Bool) (items : List Json) :
    (dropSelected selected items).Sublist items := by
  have h := (List.filter_sublist (p := fun p : Json × Nat => !selected p.2)
    (l := items.zipIdx)).map Prod.fst
  rwa [List.zipIdx_map_fst] at h

end Roster
