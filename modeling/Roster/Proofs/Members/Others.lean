import Roster.Json.Basic
import Roster.Proofs.Members
import Roster.Proofs.Members.Order

/-! Members of one name, in whatever spelling, and the members of all other names. An edit of one
member leaves the others in place, and what is found for a name depends on its members alone. Of
several members of one name the last in the order of the names counts. -/

namespace Roster

namespace Members

variable {α : Type} {ms others : Members α} {name other key : String} {value : α}

/-- The members of a name in whatever case. -/
def under (ms : Members α) (name : String) : Members α :=
  ms.filter fun m => sameName name m.1

/-- The members that a name does not mean in any case. -/
def besides (ms : Members α) (name : String) : Members α :=
  ms.filter fun m => !sameName name m.1

theorem mem_under {m : String × α} : m ∈ under ms name ↔ m ∈ ms ∧ sameName name m.1 = true :=
  List.mem_filter

/-! ### Edits of one member -/

theorem besides_insert (value : α) (h : sameName name key = true) :
    besides (insert ms key value) name = besides ms name := by
  induction ms with
  | nil => simp [insert, besides, h]
  | cons m rest ih =>
    obtain ⟨k, v⟩ := m
    simp only [besides] at ih
    simp only [insert]
    split_ifs with hk hlt
    · -- the member is replaced in place, and neither the old nor the new one is another
      subst hk
      simp [besides, h]
    · simp [besides, h]
    · simp [besides, List.filter_cons, ih]

theorem besides_erase (h : sameName name key = true) :
    besides (erase ms key) name = besides ms name := by
  unfold besides erase
  rw [List.filter_filter]
  refine List.filter_congr fun m _ => ?_
  by_cases hm : m.1 = key
  · simp [hm, h]
  · simp [hm]

theorem besides_set (ms : Members α) (name : String) (value : α) :
    besides (set ms name value) name = besides ms name := by
  unfold set
  split
  · rename_i held hk
    split_ifs
    · exact besides_insert value (sameName_refl name)
    · rw [besides_insert value (sameName_refl name), besides_erase (key?_sameName hk)]
  · exact besides_insert value (sameName_refl name)

theorem besides_remove (ms : Members α) (name : String) :
    besides (remove ms name) name = besides ms name := by
  unfold remove
  split
  · rename_i held hk
    exact besides_erase (key?_sameName hk)
  · rfl

/-! ### The held spelling -/

/-- Where the first spelling of a name is put anew, it is still the first. -/
theorem findKey_insert_held {held : String} (value : α)
    (h : (keys ms).find? (sameName name) = some held) :
    (keys (insert ms held value)).find? (sameName name) = some held := by
  have hs : sameName name held = true := List.find?_some h
  induction ms with
  | nil => simp [keys] at h
  | cons m rest ih =>
    obtain ⟨k, v⟩ := m
    simp only [keys, List.map_cons, List.find?_cons] at h ih
    simp only [insert]
    cases hk : sameName name k with
    | true =>
      rw [hk] at h
      obtain rfl := Option.some.inj h
      simp [keys, hs]
    | false =>
      rw [hk] at h
      split_ifs
      · simp [keys, hs]
      · simp [keys, hs]
      · simpa [keys, hk] using ih h

theorem key?_insert_held {held : String} (value : α) (h : key? ms name = some held) :
    key? (insert ms held value) name = some held := by
  by_cases hn : held = name
  · subst hn
    simp [key?, get?_insert_self]
  · unfold key? at h ⊢
    split_ifs at h with hg
    · exact absurd (Option.some.inj h).symm hn
    · rw [get?_insert_of_ne ms value (Ne.symm hn), if_neg hg]
      exact findKey_insert_held value h

/-! ### What depends on the members of a name -/

/-- The members of a name are among the others of every other name. -/
theorem under_of_besides (h : besides others name = besides ms name)
    (hn : sameName name other = false) : under others other = under ms other := by
  have among (ms : Members α) : under (besides ms name) other = under ms other := by
    unfold under besides
    rw [List.filter_filter]
    refine List.filter_congr fun m _ => ?_
    cases hm : sameName other m.1 with
    | false => rfl
    | true => simp [not_same_of_same hn hm]
  rw [← among others, h, among ms]

theorem get?_under (h : sameName name key = true) : get? (under ms name) key = get? ms key := by
  induction ms with
  | nil => rfl
  | cons m rest ih =>
    obtain ⟨k, v⟩ := m
    simp only [under] at ih
    by_cases hk : k = key
    · subst hk
      simp [under, h, get?]
    · by_cases hs : sameName name k = true
      · simp [under, hs, get?, hk, ih]
      · simp [under, hs, get?, hk, ih]

theorem key?_under (ms : Members α) (name : String) : key? (under ms name) name = key? ms name := by
  have hfirst : (keys (under ms name)).find? (sameName name) = (keys ms).find? (sameName name) := by
    unfold keys under
    rw [List.find?_map, List.find?_map, List.find?_filter]
    congr 2
    funext m
    simp
  unfold key?
  rw [get?_under (sameName_refl name), hfirst]

theorem find?_under (ms : Members α) (name : String) :
    find? (under ms name) name = find? ms name := by
  unfold find?
  rw [key?_under]
  cases hk : key? ms name with
  | none => rfl
  | some held => exact get?_under (key?_sameName hk)

theorem find?_of_under (h : under others name = under ms name) :
    find? others name = find? ms name := by
  rw [← find?_under others, h, find?_under]

/-- An edit of one member leaves what is found for other names. -/
theorem find?_of_besides (h : besides others name = besides ms name)
    (hn : sameName name other = false) : find? others other = find? ms other :=
  find?_of_under (under_of_besides h hn)

theorem get?_of_under (h : under others name = under ms name) :
    get? others name = get? ms name := by
  rw [← get?_under (sameName_refl name), h, get?_under (sameName_refl name)]

theorem get?_of_besides (h : besides others name = besides ms name)
    (hn : sameName name other = false) : get? others other = get? ms other :=
  get?_of_under (under_of_besides h hn)

/-- No member of a name is held exactly when nothing is found for it. -/
theorem under_eq_nil_iff : under ms name = [] ↔ find? ms name = none := by
  rw [← Option.not_isSome_iff_eq_none, find?_isSome, List.eq_nil_iff_forall_not_mem]
  constructor
  · rintro h ⟨k, hk, hs⟩
    obtain ⟨m, hm, rfl⟩ := List.mem_map.mp hk
    exact h m (mem_under.mpr ⟨hm, hs⟩)
  · intro h m hm
    obtain ⟨hmem, hs⟩ := mem_under.mp hm
    exact h ⟨m.1, List.mem_map_of_mem hmem, hs⟩

/-! ### Puts that change nothing -/

theorem insert_insert_self (ms : Members α) (key : String) (value : α) :
    insert (insert ms key value) key value = insert ms key value := by
  induction ms with
  | nil => simp [insert]
  | cons m rest ih =>
    obtain ⟨k, v⟩ := m
    simp only [insert]
    split_ifs with heq hlt
    · simp [insert]
    · simp [insert]
    · simp [insert, heq, hlt, ih]

theorem set_of_key? (h : key? ms name = some name) (value : α) :
    set ms name value = insert ms name value := by
  simp [set, h]

/-- A value that is set again is there already. -/
theorem set_set (ms : Members α) (name : String) (value : α) :
    set (set ms name value) name value = set ms name value := by
  have hkey : key? (set ms name value) name = some name := by simp [key?, get?_set_self]
  have hinsert : ∃ others, set ms name value = insert others name value := by
    unfold set
    split
    · split_ifs
      · exact ⟨_, rfl⟩
      · exact ⟨_, rfl⟩
    · exact ⟨_, rfl⟩
  obtain ⟨others, hothers⟩ := hinsert
  calc set (set ms name value) name value
    _ = insert (set ms name value) name value := set_of_key? hkey value
    _ = set ms name value := by rw [hothers, insert_insert_self]

theorem remove_of_find?_eq_none (h : find? ms name = none) : remove ms name = ms := by
  have hnone : key? ms name = none := by
    by_contra hne
    have hsome := find?_isSome.mpr (key?_isSome.mp (Option.isSome_iff_ne_none.mpr hne))
    rw [h] at hsome
    cases hsome
  rw [remove, hnone]

end Members

namespace Members

section

variable {α : Type} {pairs : List (String × α)} {ms : Members α} {m : String × α} {key : String}

theorem get?_append (ms others : Members α) (key : String) :
    get? (ms ++ others) key = (get? ms key).or (get? others key) := by
  induction ms with
  | nil => rfl
  | cons m rest ih =>
    obtain ⟨k, v⟩ := m
    by_cases hk : k = key
    · simp [get?, hk]
    · simp [get?, hk, ih]

/-- Of several values for one name the last becomes the member. -/
theorem get?_ofList_reverse (pairs : List (String × α)) (key : String) :
    get? (ofList pairs) key = get? pairs.reverse key := by
  have step (pairs : List (String × α)) (ms : Members α) :
      get? (pairs.foldl (fun ms m => insert ms m.1 m.2) ms) key =
        (get? pairs.reverse key).or (get? ms key) := by
    induction pairs generalizing ms with
    | nil => rfl
    | cons m rest ih =>
      have hput : get? (insert ms m.1 m.2) key = (get? [m] key).or (get? ms key) := by
        by_cases hk : key = m.1
        · simp [hk, get?_insert_self, get?]
        · simp [get?_insert_of_ne ms m.2 hk, get?, Ne.symm hk]
      rw [List.foldl_cons, ih, hput, List.reverse_cons, get?_append, Option.or_assoc]
  simpa [ofList, get?] using step pairs []

theorem merge_ofList (pairs others : List (String × α)) :
    merge (ofList pairs) others = ofList (pairs ++ others) := by
  rw [merge, ofList, ofList, List.foldl_append]

/-- What stands behind may be put in order first. -/
theorem ofList_append_ofList (front pairs : List (String × α)) :
    ofList (front ++ ofList pairs) = ofList (front ++ pairs) := by
  refine ext_get? (sorted_ofList _) (sorted_ofList _) fun key => ?_
  simp only [get?_ofList_reverse, List.reverse_append, get?_append]
  rw [← get?_ofList_reverse (ofList pairs), ofList_of_sorted (sorted_ofList pairs),
    get?_ofList_reverse]

theorem mem_of_mem_ofList (h : m ∈ ofList pairs) : m ∈ pairs :=
  forall_ofList (P := (· ∈ pairs)) (fun _ h => h) m h

/-- Each name of the pairs is that of a member. -/
theorem exists_mem_ofList (h : m ∈ pairs) : ∃ v, (m.1, v) ∈ ofList pairs := by
  have hkey : m.1 ∈ keys pairs.reverse := List.mem_map_of_mem (List.mem_reverse.mpr h)
  obtain ⟨v, hv⟩ := Option.isSome_iff_exists.mp (isSome_get?.mpr hkey)
  exact ⟨v, mem_of_get? ((get?_ofList_reverse pairs m.1).trans hv)⟩

/-- Members in order that stand behind all other pairs stay. -/
theorem mem_ofList_append (front : List (String × α)) (hs : Sorted ms) (h : m ∈ ms) :
    m ∈ ofList (front ++ ms) := by
  have hlast : get? ms.reverse m.1 = some m.2 := by
    rw [← get?_ofList_reverse, ofList_of_sorted hs, get?_of_mem hs h]
  have hget : get? (ofList (front ++ ms)) m.1 = some m.2 := by
    rw [get?_ofList_reverse, List.reverse_append, get?_append, hlast, Option.some_or]
  exact mem_of_get? hget

end

/-! ### The last value of a name -/

variable {ms others : Members Json} {m : String × Json} {name : String} {v : Json}

/-- The last value of a name, in whatever case, that is not null. -/
def lastValue? (ms : Members Json) (name : String) : Option Json :=
  (ms.reverse.find? fun m => sameName name m.1 && !m.2.isNull).map Prod.snd

theorem lastValue?_cons (m : String × Json) (rest : Members Json) (name : String) :
    lastValue? (m :: rest) name =
      (lastValue? rest name).or (if sameName name m.1 && !m.2.isNull then some m.2 else none) := by
  unfold lastValue?
  rw [List.reverse_cons, List.find?_append]
  cases rest.reverse.find? fun m => sameName name m.1 && !m.2.isNull with
  | some n => rfl
  | none =>
    cases hm : sameName name m.1 && !m.2.isNull with
    | true => simp [hm]
    | false => simp [hm]

theorem lastValue?_of_under (h : under ms name = under others name) :
    lastValue? ms name = lastValue? others name := by
  have among (ms : Members Json) : lastValue? (under ms name) name = lastValue? ms name := by
    unfold lastValue? under
    rw [← List.filter_reverse, List.find?_filter]
    congr 2
    funext m
    cases sameName name m.1 <;> simp
  rw [← among ms, h, among others]

theorem lastValue?_mem (h : lastValue? ms name = some v) :
    ∃ m ∈ ms, sameName name m.1 = true ∧ m.2 = v ∧ v.isNull = false := by
  obtain ⟨m, hm, rfl⟩ := Option.map_eq_some_iff.mp h
  have htest := List.find?_some hm
  rw [Bool.and_eq_true, Bool.not_eq_true'] at htest
  exact ⟨m, List.mem_reverse.mp (List.mem_of_find?_eq_some hm), htest.1, rfl, htest.2⟩

/-- Members of one name that all have one value have that value. -/
theorem lastValue?_of_all (hm : m ∈ ms) (hs : sameName name m.1 = true)
    (hall : ∀ n ∈ ms, sameName name n.1 = true → n.2 = v) :
    lastValue? ms name = if v.isNull then none else some v := by
  split_ifs with hnull
  · rw [lastValue?, Option.map_eq_none_iff, List.find?_eq_none]
    intro n hn htest
    rw [Bool.and_eq_true] at htest
    rw [hall n (List.mem_reverse.mp hn) htest.1, hnull] at htest
    exact absurd htest.2 (by decide)
  · cases hlast : lastValue? ms name with
    | some w =>
      obtain ⟨n, hn, hsame, rfl, -⟩ := lastValue?_mem hlast
      rw [hall n hn hsame]
    | none =>
      rw [lastValue?, Option.map_eq_none_iff, List.find?_eq_none] at hlast
      have hnone := hlast m (List.mem_reverse.mpr hm)
      rw [hs, hall m hm hs] at hnone
      exact absurd hnone (by simpa using hnull)

/-- A member behind all others of its name is the one that counts. -/
theorem lastValue?_of_greatest (hsorted : Sorted ms) (hm : m ∈ ms) (hs : sameName name m.1 = true)
    (hnull : m.2.isNull = false) (hgreatest : ∀ n ∈ ms, sameName name n.1 = true → n.1 ≤ m.1) :
    lastValue? ms name = some m.2 := by
  obtain ⟨front, rest, rfl⟩ := List.append_of_mem hm
  have hbehind : ∀ n ∈ rest, m.1 < n.1 :=
    (List.pairwise_cons.mp (List.pairwise_append.mp hsorted).2.1).1
  have hrest : rest.reverse.find? (fun n => sameName name n.1 && !n.2.isNull) = none := by
    refine List.find?_eq_none.mpr fun n hn htest => ?_
    rw [Bool.and_eq_true] at htest
    have hn := List.mem_reverse.mp hn
    exact absurd (hbehind n hn) (not_lt.mpr (hgreatest n (by simp [hn]) htest.1))
  simp [lastValue?, List.find?_append, hrest, hs, hnull]

end Members

/-! ### Small letters -/

theorem le_toLower (c : Char) : c ≤ c.toLower := by
  rw [Char.le_def, UInt32.le_iff_toNat_le]
  unfold Char.toLower
  split
  case isTrue h =>
    simp only [ge_iff_le, UInt32.le_iff_toNat_le] at h
    have hlast : 'Z'.val.toNat = 90 := rfl
    have hshift : ('a'.val - 'A'.val).toNat = 32 := rfl
    rw [UInt32.toNat_add]
    omega
  case isFalse => exact le_refl _

theorem le_map_toLower (cs : List Char) : cs ≤ cs.map Char.toLower := by
  induction cs with
  | nil => exact le_refl _
  | cons c cs ih =>
    rw [List.map_cons]
    rcases (le_toLower c).lt_or_eq with hlt | heq
    · exact le_of_lt (List.Lex.rel hlt)
    · rw [← heq]
      exact List.cons_le_cons c ih

/-- A name in small letters stands behind all its other spellings. -/
theorem le_of_sameName {name small : String} (h : sameName name small = true)
    (hsmall : foldCase small = small.toList) : name ≤ small := by
  rw [sameName_iff, hsmall] at h
  rw [String.le_iff_toList_le, ← h]
  exact le_map_toLower name.toList

end Roster
