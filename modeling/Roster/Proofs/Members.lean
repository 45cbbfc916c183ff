import Mathlib.Data.String.Basic
import Roster.Members

/-! Laws of members: what a lookup finds after a member is put, dropped or renamed, and the order
of the names. None of the lookup laws needs the names to be in order. -/

namespace Roster

namespace Members

variable {α : Type}

theorem get?_insert_self (ms : Members α) (key : String) (value : α) :
    get? (insert ms key value) key = some value := by
  induction ms with
  | nil => simp [insert, get?]
  | cons m ms ih =>
    obtain ⟨k, v⟩ := m
    simp only [insert]
    split_ifs with h h'
    · simp [get?]
    · simp [get?]
    · simp [get?, Ne.symm h, ih]

theorem get?_insert_of_ne (ms : Members α) {key other : String} (value : α) (h : other ≠ key) :
    get? (insert ms key value) other = get? ms other := by
  induction ms with
  | nil => simp [insert, get?, h.symm]
  | cons m ms ih =>
    obtain ⟨k, v⟩ := m
    simp only [insert]
    split_ifs with hk h'
    · subst hk
      simp [get?, h.symm]
    · simp [get?, h.symm]
    · simp [get?, ih]

theorem get?_erase_self (ms : Members α) (key : String) : get? (erase ms key) key = none := by
  induction ms with
  | nil => rfl
  | cons m ms ih =>
    obtain ⟨k, v⟩ := m
    by_cases h : k = key
    · simpa [erase, h] using ih
    · simpa [erase, h, get?] using ih

theorem get?_erase_of_ne (ms : Members α) {key other : String} (h : other ≠ key) :
    get? (erase ms key) other = get? ms other := by
  induction ms with
  | nil => rfl
  | cons m ms ih =>
    obtain ⟨k, v⟩ := m
    simp only [erase, ne_eq, decide_not] at ih
    by_cases hk : k = key
    · subst hk
      simp [erase, get?, h.symm, ih]
    · simp [erase, hk, get?, ih]

theorem erase_insert_self (ms : Members α) (key : String) (value : α) :
    erase (insert ms key value) key = erase ms key := by
  induction ms with
  | nil => simp [insert, erase]
  | cons m ms ih =>
    obtain ⟨k, v⟩ := m
    simp only [erase, ne_eq, decide_not] at ih
    simp only [insert]
    split_ifs with hk hlt
    · subst hk
      simp [erase]
    · simp [erase]
    · simp [erase, List.filter_cons, ih]

theorem mem_of_get? {ms : Members α} {key : String} {value : α} (h : get? ms key = some value) :
    (key, value) ∈ ms := by
  induction ms with
  | nil => simp [get?] at h
  | cons m ms ih =>
    obtain ⟨k, v⟩ := m
    simp only [get?] at h
    split_ifs at h with hk
    · simp_all
    · exact List.mem_cons_of_mem _ (ih h)

theorem isSome_get? {ms : Members α} {key : String} :
    (get? ms key).isSome = true ↔ key ∈ keys ms := by
  induction ms with
  | nil => simp [get?, keys]
  | cons m ms ih =>
    obtain ⟨k, v⟩ := m
    simp only [keys] at ih
    by_cases hk : k = key
    · simp [get?, keys, hk]
    · simp [get?, keys, hk, ih, Ne.symm hk]

/-! ### What holds of every member -/

/-- Putting a member keeps what holds of every member, if it holds of the new one. -/
theorem forall_insert {P : String × α → Prop} {ms : Members α} {key : String} {value : α}
    (hms : ∀ m ∈ ms, P m) (hnew : P (key, value)) : ∀ m ∈ insert ms key value, P m := by
  induction ms with
  | nil => simpa [insert] using hnew
  | cons m ms ih =>
    obtain ⟨k, v⟩ := m
    have hrest : ∀ m ∈ ms, P m := fun m hm => hms m (List.mem_cons_of_mem _ hm)
    simp only [insert]
    split_ifs with h h'
    · exact List.forall_mem_cons.mpr ⟨hnew, hrest⟩
    · exact List.forall_mem_cons.mpr ⟨hnew, hms⟩
    · exact List.forall_mem_cons.mpr ⟨hms _ List.mem_cons_self, ih hrest⟩

theorem forall_erase {P : String × α → Prop} {ms : Members α} (key : String)
    (hms : ∀ m ∈ ms, P m) : ∀ m ∈ erase ms key, P m :=
  fun m hm => hms m (List.mem_of_mem_filter hm)

theorem mem_keys_insert {ms : Members α} {key other : String} (value : α) :
    other ∈ keys (insert ms key value) ↔ other = key ∨ other ∈ keys ms := by
  rw [← isSome_get?, ← isSome_get?]
  by_cases h : other = key
  · simp [h, get?_insert_self]
  · simp [h, get?_insert_of_ne]

theorem mem_keys_erase {ms : Members α} {key other : String} :
    other ∈ keys (erase ms key) ↔ other ≠ key ∧ other ∈ keys ms := by
  rw [← isSome_get?, ← isSome_get?]
  by_cases h : other = key
  · simp [h, get?_erase_self]
  · simp [h, get?_erase_of_ne]

/-! ### Lookup in whatever case -/

theorem key?_sameName {ms : Members α} {name key : String} (h : key? ms name = some key) :
    sameName name key = true := by
  unfold key? at h
  split_ifs at h
  · simp_all
  · exact List.find?_some h

theorem key?_mem {ms : Members α} {name key : String} (h : key? ms name = some key) :
    key ∈ keys ms := by
  unfold key? at h
  split_ifs at h with hs
  · cases h
    exact isSome_get?.mp hs
  · exact List.mem_of_find?_eq_some h

theorem key?_isSome {ms : Members α} {name : String} :
    (key? ms name).isSome = true ↔ ∃ key ∈ keys ms, sameName name key = true := by
  unfold key?
  split_ifs with hs
  · simp only [Option.isSome_some, true_iff]
    exact ⟨name, isSome_get?.mp hs, sameName_refl name⟩
  · simp [List.find?_isSome]

/-- Where only the name itself is a spelling of the name, it is held under itself or not at all. -/
theorem key?_eq_self {ms : Members α} {name key : String} (h : key? ms name = some key)
    (hs : ∀ k ∈ keys ms, sameName name k = true → k = name) : key = name :=
  hs key (key?_mem h) (key?_sameName h)

/-- Where only the name itself is a spelling of the name, it is found exactly or not at all. -/
theorem find?_eq_get? {ms : Members α} {name : String}
    (hs : ∀ k ∈ keys ms, sameName name k = true → k = name) : find? ms name = get? ms name := by
  cases hk : key? ms name with
  | some key => simp [find?, hk, key?_eq_self hk hs]
  | none =>
    unfold key? at hk
    split_ifs at hk with hg
    simp [find?, key?, hk, Option.not_isSome_iff_eq_none.mp hg]

/-- A value found for a name is held under a spelling of it. -/
theorem find?_eq_some {ms : Members α} {name : String} {value : α}
    (h : find? ms name = some value) :
    ∃ key, key? ms name = some key ∧ get? ms key = some value := by
  simpa [find?, Option.bind_eq_some_iff] using h

theorem mem_of_find? {ms : Members α} {name : String} {value : α}
    (h : find? ms name = some value) :
    ∃ key, sameName name key = true ∧ (key, value) ∈ ms := by
  obtain ⟨key, hk, hg⟩ := find?_eq_some h
  exact ⟨key, key?_sameName hk, mem_of_get? hg⟩

theorem find?_isSome {ms : Members α} {name : String} :
    (find? ms name).isSome = true ↔ ∃ key ∈ keys ms, sameName name key = true := by
  rw [← key?_isSome]
  cases hk : key? ms name with
  | none => simp [find?, hk]
  | some key => simpa [find?, hk] using isSome_get?.mpr (key?_mem hk)

theorem find?_of_get? {ms : Members α} {name : String} {value : α}
    (h : get? ms name = some value) : find? ms name = some value := by
  simp [find?, key?, h]

/-! ### Other names -/

theorem findKey_insert_of_not_same {ms : Members α} {name key : String} (value : α)
    (h : sameName name key = false) :
    (keys (insert ms key value)).find? (sameName name) = (keys ms).find? (sameName name) := by
  simp only [keys]
  induction ms with
  | nil => simp [insert, h]
  | cons m ms ih =>
    obtain ⟨k, v⟩ := m
    simp only [insert]
    split_ifs with hk h'
    · subst hk
      simp [h]
    · simp [h]
    · simp [List.find?_cons, ih]

theorem findKey_erase_of_not_same {ms : Members α} {name key : String}
    (h : sameName name key = false) :
    (keys (erase ms key)).find? (sameName name) = (keys ms).find? (sameName name) := by
  simp only [keys]
  induction ms with
  | nil => rfl
  | cons m ms ih =>
    obtain ⟨k, v⟩ := m
    simp only [erase, ne_eq, decide_not] at ih
    by_cases hk : k = key
    · subst hk
      simp [erase, h, ih]
    · simp [erase, hk, List.find?_cons, ih]

theorem ne_of_not_same {name key : String} (h : sameName name key = false) : name ≠ key := by
  rintro rfl
  simp at h

/-- What is held under a spelling of a name is found for that name only. -/
theorem find?_insert_of_not_same {ms : Members α} {name key : String} (value : α)
    (h : sameName name key = false) : find? (insert ms key value) name = find? ms name := by
  have hkey : key? (insert ms key value) name = key? ms name := by
    unfold key?
    rw [get?_insert_of_ne ms value (ne_of_not_same h), findKey_insert_of_not_same value h]
  unfold find?
  rw [hkey]
  cases hk : key? ms name with
  | none => rfl
  | some held =>
    refine get?_insert_of_ne ms value ?_
    rintro rfl
    simp [key?_sameName hk] at h

theorem find?_erase_of_not_same {ms : Members α} {name key : String}
    (h : sameName name key = false) : find? (erase ms key) name = find? ms name := by
  have hkey : key? (erase ms key) name = key? ms name := by
    unfold key?
    rw [get?_erase_of_ne ms (ne_of_not_same h), findKey_erase_of_not_same h]
  unfold find?
  rw [hkey]
  cases hk : key? ms name with
  | none => rfl
  | some held =>
    refine get?_erase_of_ne ms ?_
    rintro rfl
    simp [key?_sameName hk] at h

/-- A name that is not another is no spelling of that other. -/
theorem not_same_of_same {name other held : String} (h : sameName name other = false)
    (hs : sameName other held = true) : sameName name held = false := by
  rw [Bool.eq_false_iff] at h ⊢
  intro hheld
  rw [sameName_comm] at hs
  exact h (sameName_trans hheld hs)

theorem not_same_of_key? {ms : Members α} {name other held : String}
    (h : sameName name other = false) (hk : key? ms other = some held) :
    sameName name held = false :=
  not_same_of_same h (key?_sameName hk)

theorem find?_set_of_not_same {ms : Members α} {name other : String} (value : α)
    (h : sameName name other = false) : find? (set ms other value) name = find? ms name := by
  unfold set
  split
  · rename_i held hk
    have hheld := not_same_of_key? h hk
    split_ifs
    · exact find?_insert_of_not_same value h
    · rw [find?_insert_of_not_same value h, find?_erase_of_not_same hheld]
  · exact find?_insert_of_not_same value h

theorem find?_remove_of_not_same {ms : Members α} {name other : String}
    (h : sameName name other = false) : find? (remove ms other) name = find? ms name := by
  unfold remove
  split
  · rename_i held hk
    exact find?_erase_of_not_same (not_same_of_key? h hk)
  · rfl

theorem get?_set_of_not_same {ms : Members α} {name other : String} (value : α)
    (h : sameName name other = false) : get? (set ms other value) name = get? ms name := by
  unfold set
  split
  · rename_i held hk
    have hheld := ne_of_not_same (not_same_of_key? h hk)
    split_ifs
    · exact get?_insert_of_ne ms value (ne_of_not_same h)
    · rw [get?_insert_of_ne _ value (ne_of_not_same h), get?_erase_of_ne ms hheld]
  · exact get?_insert_of_ne ms value (ne_of_not_same h)

theorem get?_remove_of_not_same {ms : Members α} {name other : String}
    (h : sameName name other = false) : get? (remove ms other) name = get? ms name := by
  unfold remove
  split
  · rename_i held hk
    exact get?_erase_of_ne ms (ne_of_not_same (not_same_of_key? h hk))
  · rfl

theorem get?_set_self (ms : Members α) (name : String) (value : α) :
    get? (set ms name value) name = some value := by
  unfold set
  split
  · split_ifs <;> exact get?_insert_self _ _ _
  · exact get?_insert_self _ _ _

theorem find?_set_self (ms : Members α) (name : String) (value : α) :
    find? (set ms name value) name = some value :=
  find?_of_get? (get?_set_self ms name value)

/-- After a removal the name itself is not held, though another spelling of it may be. -/
theorem get?_remove_self (ms : Members α) (name : String) : get? (remove ms name) name = none := by
  cases hg : get? ms name with
  | some v =>
    have hk : key? ms name = some name := by simp [key?, hg]
    simp [remove, hk, get?_erase_self]
  | none =>
    unfold remove
    split
    · -- another spelling is held, and it alone is removed
      rename_i held hk
      by_cases hh : name = held
      · rw [← hh, get?_erase_self]
      · rw [get?_erase_of_ne ms hh, hg]
    · exact hg

theorem mem_keys_set {ms : Members α} {name other : String} {value : α}
    (h : other ∈ keys (set ms name value)) :
    other = name ∨ (other ∈ keys ms ∧ key? ms name ≠ some other) := by
  unfold set at h
  split at h
  · rename_i held hk
    split_ifs at h with heq
    · subst heq
      by_cases ho : other = held
      · exact .inl ho
      · refine .inr ⟨((mem_keys_insert value).mp h).resolve_left ho, ?_⟩
        rw [hk]
        exact fun hs => ho (Option.some.inj hs).symm
    · refine ((mem_keys_insert value).mp h).imp_right fun h => ?_
      obtain ⟨hne, hmem⟩ := mem_keys_erase.mp h
      refine ⟨hmem, ?_⟩
      rw [hk]
      exact fun hs => hne (Option.some.inj hs).symm
  · rename_i hk
    refine ((mem_keys_insert value).mp h).imp_right fun h => ⟨h, ?_⟩
    simp [hk]

theorem mem_keys_remove {ms : Members α} {name other : String}
    (h : other ∈ keys (remove ms name)) : other ∈ keys ms ∧ key? ms name ≠ some other := by
  unfold remove at h
  split at h
  · rename_i held hk
    obtain ⟨hne, hmem⟩ := mem_keys_erase.mp h
    refine ⟨hmem, ?_⟩
    rw [hk]
    exact fun hs => hne (Option.some.inj hs).symm
  · rename_i hk
    exact ⟨h, by simp [hk]⟩

theorem forall_set {P : String × α → Prop} {ms : Members α} {name : String} {value : α}
    (hms : ∀ m ∈ ms, P m) (hnew : P (name, value)) : ∀ m ∈ set ms name value, P m := by
  unfold set
  split
  · split_ifs
    · exact forall_insert hms hnew
    · exact forall_insert (forall_erase _ hms) hnew
  · exact forall_insert hms hnew

theorem forall_remove {P : String × α → Prop} {ms : Members α} (name : String)
    (hms : ∀ m ∈ ms, P m) : ∀ m ∈ remove ms name, P m := by
  unfold remove
  split
  · exact forall_erase _ hms
  · exact hms

/-! ### Names in one spelling -/

/-- No two spellings of a name are held. -/
def SpelledOnce (ms : Members α) (name : String) : Prop :=
  ∀ k ∈ keys ms, ∀ l ∈ keys ms, sameName name k = true → sameName name l = true → k = l

instance (ms : Members α) (name : String) : Decidable (SpelledOnce ms name) :=
  inferInstanceAs (Decidable (∀ k ∈ keys ms, ∀ l ∈ keys ms, _ → _ → k = l))

theorem SpelledOnce.key? {ms : Members α} {name k : String} (h : SpelledOnce ms name)
    (hk : k ∈ keys ms) (hs : sameName name k = true) : key? ms name = some k := by
  obtain ⟨held, hheld⟩ := Option.isSome_iff_exists.mp (key?_isSome.mpr ⟨k, hk, hs⟩)
  rw [hheld, h k hk held (key?_mem hheld) hs (key?_sameName hheld)]

theorem SpelledOnce.set {ms : Members α} {name other : String} {value : α}
    (h : SpelledOnce ms name) (hname : sameName name other = true → other = name) :
    SpelledOnce (set ms other value) name := by
  cases hs : sameName name other with
  | true =>
    obtain rfl := hname hs
    -- a set leaves the name itself as its only spelling
    have only {k : String} (hk : k ∈ keys (Members.set ms other value))
        (hks : sameName other k = true) : k = other :=
      (mem_keys_set hk).resolve_right fun ⟨hmem, hne⟩ => hne (h.key? hmem hks)
    exact fun k hk l hl hks hls => (only hk hks).trans (only hl hls).symm
  | false =>
    have before {k : String} (hk : k ∈ keys (Members.set ms other value))
        (hks : sameName name k = true) : k ∈ keys ms := by
      refine ((mem_keys_set hk).resolve_left ?_).1
      rintro rfl
      simp [hs] at hks
    exact fun k hk l hl hks hls => h k (before hk hks) l (before hl hls) hks hls

theorem SpelledOnce.remove {ms : Members α} {name : String} (h : SpelledOnce ms name)
    (other : String) : SpelledOnce (remove ms other) name :=
  fun k hk l hl => h k (mem_keys_remove hk).1 l (mem_keys_remove hl).1

/-- A removal uncovers no other spelling where there is none. -/
theorem SpelledOnce.find?_remove {ms : Members α} {name : String} (h : SpelledOnce ms name) :
    find? (Members.remove ms name) name = none := by
  rw [← Option.not_isSome_iff_eq_none, find?_isSome]
  rintro ⟨k, hk, hs⟩
  obtain ⟨hmem, hne⟩ := mem_keys_remove hk
  exact hne (h.key? hmem hs)

/-! ### Order of the names -/

theorem sorted_insert {ms : Members α} (key : String) (value : α) (hs : Sorted ms) :
    Sorted (insert ms key value) := by
  induction ms with
  | nil => simp [insert, Sorted]
  | cons m ms ih =>
    obtain ⟨k, v⟩ := m
    obtain ⟨hk, hms⟩ := List.pairwise_cons.mp hs
    simp only [insert]
    split_ifs with h h'
    · subst h
      exact List.pairwise_cons.mpr ⟨hk, hms⟩
    · refine List.pairwise_cons.mpr ⟨?_, hs⟩
      exact List.forall_mem_cons.mpr ⟨h', fun m hm => String.lt_trans h' (hk m hm)⟩
    · have hlt : k < key := lt_of_le_of_ne (not_lt.mp h') (Ne.symm h)
      exact List.pairwise_cons.mpr ⟨forall_insert hk hlt, ih hms⟩

theorem sorted_erase {ms : Members α} (key : String) (hs : Sorted ms) : Sorted (erase ms key) :=
  List.Pairwise.filter _ hs

/-- A member behind all others goes to the end. -/
theorem insert_of_greatest {ms : Members α} {key : String} (value : α)
    (h : ∀ m ∈ ms, m.1 < key) : insert ms key value = ms ++ [(key, value)] := by
  induction ms with
  | nil => rfl
  | cons m ms ih =>
    obtain ⟨k, v⟩ := m
    have hk : k < key := h _ List.mem_cons_self
    simp only [insert, hk.ne', hk.not_gt, ↓reduceIte, List.cons_append,
      ih fun m hm => h m (List.mem_cons_of_mem _ hm)]

theorem sorted_ofList (pairs : List (String × α)) : Sorted (ofList pairs) := by
  have step (pairs : List (String × α)) (ms : Members α) (hs : Sorted ms) :
      Sorted (pairs.foldl (fun ms m => insert ms m.1 m.2) ms) := by
    induction pairs generalizing ms with
    | nil => exact hs
    | cons m pairs ih => exact ih _ (sorted_insert _ _ hs)
  exact step pairs [] List.Pairwise.nil

theorem get?_of_mem {ms : Members α} (hs : Sorted ms) {key : String} {value : α}
    (h : (key, value) ∈ ms) : get? ms key = some value := by
  induction ms with
  | nil => simp at h
  | cons m ms ih =>
    obtain ⟨k, v⟩ := m
    obtain ⟨hlt, hms⟩ := List.pairwise_cons.mp hs
    rcases List.mem_cons.mp h with h | h
    · cases h
      simp [get?]
    · have hne : k ≠ key := (hlt _ h).ne
      simp [get?, hne, ih hms h]

/-- What holds of all pairs holds of the members made of them. -/
theorem forall_ofList {P : String × α → Prop} {pairs : List (String × α)}
    (h : ∀ m ∈ pairs, P m) : ∀ m ∈ ofList pairs, P m := by
  have step (pairs : List (String × α)) (ms : Members α) (hp : ∀ m ∈ pairs, P m)
      (hms : ∀ m ∈ ms, P m) : ∀ m ∈ pairs.foldl (fun ms m => insert ms m.1 m.2) ms, P m := by
    induction pairs generalizing ms with
    | nil => exact hms
    | cons m pairs ih =>
      exact ih _ (fun m hm => hp m (List.mem_cons_of_mem _ hm))
        (forall_insert hms (hp _ List.mem_cons_self))
  exact step pairs [] h (by simp)

/-- Members in order are the members made of them. -/
theorem ofList_of_sorted {ms : Members α} (hs : Sorted ms) : ofList ms = ms := by
  -- each further member is behind all in front of it
  have step (rest front : Members α) (h : Sorted (front ++ rest)) :
      rest.foldl (fun ms m => insert ms m.1 m.2) front = front ++ rest := by
    induction rest generalizing front with
    | nil => simp
    | cons m rest ih =>
      have hgreatest : ∀ x ∈ front, x.1 < m.1 := fun x hx =>
        (List.pairwise_append.mp h).2.2 x hx m List.mem_cons_self
      rw [List.foldl_cons, insert_of_greatest m.2 hgreatest]
      simpa using ih (front ++ [m]) (by simpa using h)
  exact step ms [] hs

end Members

end Roster
