import Roster.Proofs.Json
import Roster.Proofs.Patch.Rules

/-! Elements that a list marks as primary: what each edit of a list does to their number. An edit
that marks nothing adds none, and one that marks a single element demotes all others. -/

namespace Roster

/-! ### Counting the elements with a property -/

theorem countP_le_one_iff {α : Type} {p : α → Bool} {l : List α} :
    l.countP p ≤ 1 ↔ l.Pairwise fun v w => p v = true → p w = false := by
  induction l with
  | nil => simp
  | cons v rest ih =>
    rw [List.countP_cons, List.pairwise_cons, ← ih]
    by_cases hv : p v = true
    · have hnone : rest.countP p = 0 ↔ ∀ w ∈ rest, p w = false := by
        simp [List.countP_eq_zero]
      simp only [hv, ↓reduceIte, forall_const, ← hnone]
      omega
    · simp [hv]

/-- At most one element has a property when the first index and the second are always the same. -/
theorem countP_le_one_of_index {α : Type} {p : α → Bool} {l : List α}
    (h : ∀ (i j : Nat) (v w : α), l[i]? = some v → l[j]? = some w → p v = true → p w = true →
      i = j) :
    l.countP p ≤ 1 := by
  refine countP_le_one_iff.mpr (List.pairwise_iff_getElem.mpr fun i j hi hj hlt hv => ?_)
  by_contra hw
  have heq := h i j _ _ (List.getElem?_eq_getElem hi) (List.getElem?_eq_getElem hj) hv
    (by simpa using hw)
  omega

theorem index_eq_of_countP {α : Type} {p : α → Bool} {l : List α} (h : l.countP p ≤ 1) {i j : Nat}
    {v w : α} (hi : l[i]? = some v) (hj : l[j]? = some w) (hv : p v = true) (hw : p w = true) :
    i = j := by
  obtain ⟨hilt, rfl⟩ := List.getElem?_eq_some_iff.mp hi
  obtain ⟨hjlt, rfl⟩ := List.getElem?_eq_some_iff.mp hj
  have hpairs := List.pairwise_iff_getElem.mp (countP_le_one_iff.mp h)
  rcases Nat.lt_trichotomy i j with hlt | heq | hlt
  · simp [hpairs i j hilt hjlt hlt hv] at hw
  · exact heq
  · simp [hpairs j i hjlt hilt hlt hw] at hv

/-! ### Edits at some indices, index by index -/

theorem editSelected_getElem? {selected : Nat → Bool} {f : Edit Json} {start : Nat}
    {items items' : List Json} (h : editSelected selected f start items = .ok items') {i : Nat}
    {w : Json} (hw : items'[i]? = some w) :
    ∃ v, items[i]? = some v ∧ if selected (start + i) then f v = .ok w else w = v := by
  induction items generalizing start items' i with
  | nil =>
    cases h
    simp at hw
  | cons v rest ih =>
    obtain ⟨w', rest', hhead, hrest, rfl⟩ := editSelected_cons h
    cases i with
    | zero =>
      obtain rfl : w' = w := by simpa using hw
      exact ⟨v, rfl, by simpa using hhead⟩
    | succ i =>
      obtain ⟨u, hu, hedit⟩ := ih hrest (by simpa using hw)
      exact ⟨u, by simpa using hu, by rwa [Nat.add_right_comm] at hedit⟩

theorem editSelected_length {selected : Nat → Bool} {f : Edit Json} {start : Nat}
    {items items' : List Json} (h : editSelected selected f start items = .ok items') :
    items'.length = items.length := by
  induction items generalizing start items' with
  | nil =>
    cases h
    rfl
  | cons v rest ih =>
    obtain ⟨w, rest', -, hrest, rfl⟩ := editSelected_cons h
    simp [ih hrest]

section

variable {marks : Json → Bool} {E : Json → Prop} {selected : Nat → Bool} {f : Edit Json}
  {items items' : List Json}

/-- An edit that marks no element leaves no more marked ones. -/
theorem countP_editSelected_le {start : Nat}
    (hf : ∀ v w, E v → f v = .ok w → marks w = true → marks v = true) (hi : ∀ v ∈ items, E v)
    (h : editSelected selected f start items = .ok items') :
    items'.countP marks ≤ items.countP marks := by
  induction items generalizing start items' with
  | nil =>
    cases h
    simp
  | cons v rest ih =>
    obtain ⟨w, rest', hw, hr, rfl⟩ := editSelected_cons h
    obtain ⟨hv, hrest⟩ := List.forall_mem_cons.mp hi
    have hle := ih hrest hr
    have hkeep : marks w = true → marks v = true := by
      split_ifs at hw
      · exact hf v w hv hw
      · exact fun hm => hw ▸ hm
    rw [List.countP_cons, List.countP_cons]
    split_ifs with h1 h2
    · omega
    · exact absurd (hkeep h1) h2
    · omega
    · omega

/-- After the others are demoted, only the edited elements can be marked. -/
theorem selected_of_marked (hd : ∀ v : Json, marks v.demoted = false)
    (h : editSelected selected f 0 (demoteOthers selected items) = .ok items') {i : Nat} {w : Json}
    (hw : items'[i]? = some w) (hm : marks w = true) :
    selected i = true ∧ ∃ v, f v = .ok w := by
  obtain ⟨v, hv, hedit⟩ := editSelected_getElem? h hw
  rw [Nat.zero_add] at hedit
  by_cases hs : selected i = true
  · exact ⟨hs, v, by simpa [hs] using hedit⟩
  · obtain rfl : w = v := by simpa [hs] using hedit
    obtain ⟨u, -, rfl⟩ : ∃ u, items[i]? = some u ∧ u.demoted = w := by
      simpa [demoteOthers, List.getElem?_mapIdx, hs] using hv
    simp [hd] at hm

theorem countP_editSelected_le_one (hd : ∀ v : Json, marks v.demoted = false)
    (hone : AtMostOne selected items.length)
    (h : editSelected selected f 0 (demoteOthers selected items) = .ok items') :
    items'.countP marks ≤ 1 := by
  have hlength : items'.length = items.length := by
    simpa [demoteOthers] using editSelected_length h
  have hlt {i : Nat} {w : Json} (hw : items'[i]? = some w) : i < items.length :=
    hlength ▸ (List.getElem?_eq_some_iff.mp hw).1
  -- two marked elements are both selected, and so at one index
  refine countP_le_one_of_index fun i j v w hv hw hmv hmw => ?_
  exact hone i j (hlt hv) (hlt hw) (selected_of_marked hd h hv hmv).1
    (selected_of_marked hd h hw hmw).1

/-- An edit that marks every element it touches marks several where several are selected. -/
theorem two_le_countP_editSelected (hf : ∀ v w, f v = .ok w → marks w = true) {i j : Nat}
    (hij : i ≠ j) (hi : i < items.length) (hj : j < items.length) (hsi : selected i = true)
    (hsj : selected j = true) (h : editSelected selected f 0 items = .ok items') :
    ¬items'.countP marks ≤ 1 := by
  have marked {k : Nat} (hk : k < items.length) (hs : selected k = true) :
      ∃ w, items'[k]? = some w ∧ marks w = true := by
    have hlt : k < items'.length := by rwa [editSelected_length h]
    have hw := List.getElem?_eq_getElem hlt
    obtain ⟨v, -, hedit⟩ := editSelected_getElem? h hw
    exact ⟨_, hw, hf v _ (by simpa [hs] using hedit)⟩
  obtain ⟨v, hv, hmv⟩ := marked hi hsi
  obtain ⟨w, hw, hmw⟩ := marked hj hsj
  exact fun hle => hij (index_eq_of_countP hle hv hw hmv hmw)

end

/-! ### Distinct elements -/

theorem dropRepeats_distinct (items : List Json) :
    (dropRepeats items).Pairwise fun v w => v.same w = false := by
  have step (rest kept : List Json) (hk : kept.Pairwise fun v w => v.same w = false) :
      (rest.foldl (fun kept v => if kept.any (·.same v) then kept else kept ++ [v]) kept).Pairwise
        fun v w => v.same w = false := by
    induction rest generalizing kept with
    | nil => exact hk
    | cons v rest ih =>
      rw [List.foldl_cons]
      refine ih _ ?_
      split_ifs with hany
      · exact hk
      · -- an element is kept only when none of those before is the same
        refine List.pairwise_append.mpr ⟨hk, List.pairwise_singleton _ _, fun u hu w hw => ?_⟩
        obtain rfl := List.mem_singleton.mp hw
        by_contra hsame
        exact hany (List.any_eq_true.mpr ⟨u, hu, by simpa using hsame⟩)
  exact step items [] List.Pairwise.nil

/-- Where all marked elements are one and the same, one of them is left. -/
theorem countP_dropRepeats_le_one {marks : Json → Bool} {items : List Json} (new : Json)
    (h : ∀ v ∈ items, marks v = true → v = new) : (dropRepeats items).countP marks ≤ 1 := by
  refine countP_le_one_iff.mpr ?_
  refine (dropRepeats_distinct items).imp_of_mem fun {v w} hv hw hne hmv => ?_
  by_contra hmw
  have hvn := h v ((dropRepeats_sublist items).subset hv) hmv
  have hwn := h w ((dropRepeats_sublist items).subset hw) (by simpa using hmw)
  rw [hvn, hwn, Json.same_refl] at hne
  simp at hne

end Roster
