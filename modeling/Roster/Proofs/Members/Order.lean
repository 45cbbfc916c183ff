import Roster.Proofs.Members

/-! Members in order: they are determined by what is found under each name, and where only the name
itself is a spelling of a name, the edits of its member do not look for another one. -/

namespace Roster

namespace Members

variable {α : Type} {ms others : Members α} {name key : String} {value : α}

/-! ### Lookups determine members in order -/

theorem get?_eq_some_iff (hs : Sorted ms) : get? ms key = some value ↔ (key, value) ∈ ms :=
  ⟨mem_of_get?, get?_of_mem hs⟩

theorem nodup_keys (hs : Sorted ms) : (keys ms).Nodup := by
  have hlt : (keys ms).Pairwise (· < ·) := List.pairwise_map.mpr hs
  exact hlt.imp fun h => h.ne

/-- Members in order that hold the same are equal. -/
theorem ext_mem (hs : Sorted ms) (ho : Sorted others) (h : ∀ m, m ∈ ms ↔ m ∈ others) :
    ms = others := by
  have nodup {ms : Members α} (hs : Sorted ms) : ms.Nodup :=
    hs.imp fun hlt heq => hlt.ne (congrArg Prod.fst heq)
  have hperm : ms.Perm others := (List.perm_ext_iff_of_nodup (nodup hs) (nodup ho)).mpr h
  refine hperm.eq_of_pairwise (fun a b _ _ hab hba => ?_) hs ho
  exact absurd (String.lt_trans hab hba) (String.lt_irrefl _)

theorem ext_get? (hs : Sorted ms) (ho : Sorted others)
    (h : ∀ key, get? ms key = get? others key) : ms = others := by
  refine ext_mem hs ho fun m => ?_
  obtain ⟨key, value⟩ := m
  rw [← get?_eq_some_iff hs, ← get?_eq_some_iff ho, h key]

/-- Putting what is there changes nothing. -/
theorem insert_of_get? (hs : Sorted ms) (h : get? ms key = some value) :
    insert ms key value = ms := by
  refine ext_get? (sorted_insert key value hs) hs fun other => ?_
  by_cases ho : other = key
  · rw [ho, get?_insert_self, h]
  · exact get?_insert_of_ne ms value ho

theorem mem_insert (hs : Sorted ms) {m : String × α} :
    m ∈ insert ms key value ↔ m = (key, value) ∨ (m ∈ ms ∧ m.1 ≠ key) := by
  obtain ⟨other, x⟩ := m
  rw [← get?_eq_some_iff (sorted_insert key value hs), ← get?_eq_some_iff hs]
  by_cases ho : other = key
  · subst ho
    simp [get?_insert_self, eq_comm]
  · simp [get?_insert_of_ne ms value ho, ho]

/-- Of the chosen names each is found as before. -/
theorem get?_filter (p : String → Bool) (ms : Members α) (key : String) :
    get? (ms.filter fun m => p m.1) key = if p key then get? ms key else none := by
  induction ms with
  | nil => simp [get?]
  | cons m ms ih =>
    obtain ⟨k, v⟩ := m
    by_cases hk : k = key
    · subst hk
      by_cases hp : p k = true <;> simp_all [get?]
    · by_cases hp : p k = true <;> simp_all [get?]

theorem sorted_filter (p : String × α → Bool) (hs : Sorted ms) : Sorted (ms.filter p) :=
  List.Pairwise.filter _ hs

/-- Of pairs with different names, all become members. -/
theorem mem_ofList {pairs : List (String × α)} (hn : (keys pairs).Nodup) {m : String × α} :
    m ∈ ofList pairs ↔ m ∈ pairs := by
  have step (pairs : List (String × α)) (ms : Members α) (hs : Sorted ms)
      (hn : (keys pairs).Nodup) (hnew : ∀ a ∈ pairs, ∀ b ∈ ms, b.1 ≠ a.1) :
      m ∈ pairs.foldl (fun ms m => insert ms m.1 m.2) ms ↔ m ∈ ms ∨ m ∈ pairs := by
    induction pairs generalizing ms with
    | nil => simp
    | cons a rest ih =>
      obtain ⟨hfirst, hrest⟩ := List.nodup_cons.mp hn
      have hkeep : m ∈ ms → m.1 ≠ a.1 := hnew a List.mem_cons_self m
      rw [List.foldl_cons, ih _ (sorted_insert _ _ hs) hrest, mem_insert hs, List.mem_cons]
      · tauto
      · -- the names still to come are neither held nor that of the new member
        intro b hb x hx
        rcases (mem_insert hs).mp hx with rfl | ⟨hx, -⟩
        · exact fun heq => hfirst (heq ▸ List.mem_map_of_mem hb)
        · exact hnew b (List.mem_cons_of_mem _ hb) x hx
  simpa [ofList] using step pairs [] List.Pairwise.nil hn (by simp)

/-- Of pairs with different names, each is found under its name. -/
theorem get?_ofList {pairs : List (String × α)} (hn : (keys pairs).Nodup) (key : String) :
    get? (ofList pairs) key = get? pairs key := by
  have hpair : ∀ value, get? pairs key = some value ↔ (key, value) ∈ pairs := by
    intro value
    refine ⟨mem_of_get?, fun hm => ?_⟩
    induction pairs with
    | nil => cases hm
    | cons m rest ih =>
      obtain ⟨k, v⟩ := m
      obtain ⟨hfirst, hrest⟩ := List.nodup_cons.mp hn
      rcases List.mem_cons.mp hm with heq | hm
      · cases heq
        simp [get?]
      · have hne : k ≠ key := by
          rintro rfl
          exact hfirst (List.mem_map.mpr ⟨_, hm, rfl⟩)
        rw [get?, if_neg hne]
        exact ih hrest hm
  refine Option.ext fun value => ?_
  rw [get?_eq_some_iff (sorted_ofList pairs), mem_ofList hn, hpair]

/-! ### Names in their own spelling -/

variable (hspelled : ∀ k ∈ keys ms, sameName name k = true → k = name)

include hspelled

/-- A name in its own spelling is held under itself. -/
theorem heldKey_eq_self : (key? ms name).getD name = name := by
  cases hk : key? ms name with
  | none => rfl
  | some held => exact key?_eq_self hk hspelled

theorem set_eq_insert (value : α) : set ms name value = insert ms name value := by
  unfold set
  cases hk : key? ms name with
  | none => rfl
  | some held => simp [key?_eq_self hk hspelled]

theorem remove_eq_erase : remove ms name = erase ms name := by
  unfold remove
  cases hk : key? ms name with
  | some held => simp [key?_eq_self hk hspelled]
  | none =>
    -- what is not found under any spelling is not there to be erased
    refine (List.filter_eq_self.mpr fun m hm => ?_).symm
    have hnone : ¬(key? ms name).isSome = true := by simp [hk]
    rw [key?_isSome] at hnone
    rw [decide_eq_true_eq]
    rintro rfl
    exact hnone ⟨m.1, List.mem_map_of_mem hm, sameName_refl _⟩

end Members

end Roster
