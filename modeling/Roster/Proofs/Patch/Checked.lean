import Roster.Patch.Check
import Roster.Proofs.Members
import Roster.Proofs.Success

/-! Checked values. A check gives a value that passes it unchanged, under canonical names at every
depth, so that a value is checked exactly when its check returns it. -/

namespace Roster

/-! ### Finding a definition -/

theorem findAttribute?_sameName {attributes : List Attribute} {name : String} {a : Attribute}
    (h : findAttribute? attributes name = some a) : sameName a.name name = true :=
  List.find?_some (p := fun a : Attribute => sameName a.name name) h

theorem findAttribute?_mem {attributes : List Attribute} {name : String} {a : Attribute}
    (h : findAttribute? attributes name = some a) : a ∈ attributes :=
  List.mem_of_find?_eq_some h

/-- Names that are the same have the same definition. -/
theorem findAttribute?_congr {name other : String} (attributes : List Attribute)
    (h : sameName name other = true) :
    findAttribute? attributes name = findAttribute? attributes other := by
  have hp : (fun a : Attribute => sameName a.name name) = fun a => sameName a.name other := by
    funext a
    rw [Bool.eq_iff_iff, sameName_iff, sameName_iff, sameName_iff.mp h]
  rw [findAttribute?, findAttribute?, hp]

/-- A definition that was found is found again under its own name. -/
theorem findAttribute?_name {attributes : List Attribute} {name : String} {a : Attribute}
    (h : findAttribute? attributes name = some a) : findAttribute? attributes a.name = some a :=
  (findAttribute?_congr attributes (findAttribute?_sameName h)).trans h

/-! ### Scalars -/

/-- An admitted value is neither null nor an object, and is admitted as it is. -/
theorem admit?_admitted {type : AttributeType} {v w : Json} (h : type.admit? v = some w) :
    type.admit? w = some w ∧ w.isNull = false ∧ w.isObject = false := by
  cases type with
  | string | reference | binary =>
    obtain ⟨s, -, rfl⟩ := Option.map_eq_some_iff.mp h
    exact ⟨rfl, rfl, rfl⟩
  | decimal =>
    obtain ⟨n, -, rfl⟩ := Option.map_eq_some_iff.mp h
    exact ⟨rfl, rfl, rfl⟩
  | complex => simp [AttributeType.admit?] at h
  | integer =>
    simp only [AttributeType.admit?] at h
    split at h
    · cases h
      exact ⟨rfl, rfl, rfl⟩
    · simp at h
  | dateTime =>
    obtain ⟨s, -, hs⟩ := Option.bind_eq_some_iff.mp h
    obtain ⟨t, ht, rfl⟩ := Option.map_eq_some_iff.mp hs
    exact ⟨by simp [AttributeType.admit?, Json.string?, ht], rfl, rfl⟩
  | boolean =>
    simp only [AttributeType.admit?] at h
    split at h
    · cases h
      exact ⟨rfl, rfl, rfl⟩
    · split_ifs at h <;> cases h <;> exact ⟨rfl, rfl, rfl⟩
    · simp at h

theorem checkScalar_eq_ok {a : Attribute} {v w : Json} :
    checkScalar a v = .ok w ↔ a.type.admit? v = some w := by
  unfold checkScalar
  cases a.type.admit? v <;> simp

theorem checkValue_singular {a : Attribute} (hm : a.multiValued = false) (v : Json) :
    checkValue a v = checkSingle a v := by
  rw [checkValue, hm, if_neg Bool.false_ne_true]

theorem checkValue_several {a : Attribute} (hm : a.multiValued = true) (v : Json) :
    checkValue a v = (checkElements a v).map .arr := by
  rw [checkValue, if_pos hm]

theorem checkSingle_of_ne_complex {a : Attribute} (hc : a.type ≠ .complex) (v : Json) :
    checkSingle a v = checkScalar a v := by
  cases v <;> simp [checkSingle, hc]

/-- A value that is not an object is checked as a scalar, if it can be. -/
theorem checkSingle_of_not_object {a : Attribute} {v : Json} (h : v.isObject = false) :
    checkSingle a v =
      if a.type == .complex then .error (.notObject a.name v) else checkScalar a v := by
  cases v <;> simp_all [checkSingle, Json.isObject]

theorem checkScalar_checked {a : Attribute} {v w : Json} (hc : a.type ≠ .complex)
    (h : checkScalar a v = .ok w) : checkSingle a w = .ok w := by
  obtain ⟨hw, -⟩ := admit?_admitted (checkScalar_eq_ok.mp h)
  rw [checkSingle_of_ne_complex hc]
  exact checkScalar_eq_ok.mpr hw

/-! ### Objects and lists -/

/-- A member as a check leaves it: under the canonical name of a definition that is not read-only,
with a value that is not null and passes unchanged. -/
structure CheckedMember (definitions : List Attribute) (m : String × Json) : Prop where
  checked : ∃ a, findAttribute? definitions m.1 = some a ∧ a.name = m.1 ∧ a.isReadOnly = false ∧
    checkValue a m.2 = .ok m.2
  not_null : m.2.isNull = false

theorem checkSingle_not_null {a : Attribute} {v w : Json} (h : checkSingle a v = .ok w) :
    w.isNull = false := by
  by_cases hc : a.type = .complex
  · rw [checkSingle_complex hc] at h
    obtain ⟨members, -, rfl⟩ := map_eq_ok.mp h
    rfl
  · rw [checkSingle_of_ne_complex hc] at h
    exact (admit?_admitted (checkScalar_eq_ok.mp h)).2.1

theorem checkValue_not_null {a : Attribute} {v w : Json} (h : checkValue a v = .ok w) :
    w.isNull = false := by
  unfold checkValue at h
  split_ifs at h
  · obtain ⟨items, -, rfl⟩ := map_eq_ok.mp h
    rfl
  · exact checkSingle_not_null h

/-- Items that pass unchanged pass together. -/
theorem checkItems_eq_self {a : Attribute} {items : List Json}
    (h : ∀ v ∈ items, checkSingle a v = .ok v) : checkItems a items = .ok items := by
  induction items with
  | nil => rfl
  | cons v rest ih =>
    simp [checkItems, h v List.mem_cons_self, ih fun w hw => h w (List.mem_cons_of_mem _ hw),
      bind, Except.bind]

theorem checkPairs_eq_self {owner : String} {definitions : List Attribute}
    {members : List (String × Json)} (h : ∀ m ∈ members, CheckedMember definitions m) :
    checkPairs owner definitions members = .ok members := by
  induction members with
  | nil => rfl
  | cons m rest ih =>
    obtain ⟨key, v⟩ := m
    obtain ⟨⟨a, hfind, hname, hro, hv⟩, hnull⟩ := h _ List.mem_cons_self
    simp_all [checkPairs_cons, bind, Except.bind]

/-- Members that are checked and in order pass as they are. -/
theorem checkMembers_eq_self {owner : String} {definitions : List Attribute}
    {members : Members Json} (h : ∀ m ∈ members, CheckedMember definitions m)
    (hs : Members.Sorted members) :
    checkMembers owner definitions (.obj members) = .ok members := by
  simp [checkMembers, checkPairs_eq_self h, Except.map, Members.ofList_of_sorted hs]

/-- Where single values and items are checked, so is the value of an attribute. -/
theorem checkValue_checked_of {a : Attribute} {v w : Json}
    (hitems : ∀ {items}, checkElements a v = .ok items → ∀ w ∈ items, checkSingle a w = .ok w)
    (hsingle : ∀ {w}, checkSingle a v = .ok w → checkSingle a w = .ok w)
    (h : checkValue a v = .ok w) : checkValue a w = .ok w := by
  unfold checkValue at h ⊢
  split_ifs at h ⊢ with hm
  · obtain ⟨items, hi, rfl⟩ := map_eq_ok.mp h
    simp [checkElements, Json.flatten, Except.map, checkItems_eq_self (hitems hi)]
  · exact hsingle h

mutual

/-- A checked value passes the check unchanged. -/
theorem checkSingle_checked {a : Attribute} :
    (v : Json) → {w : Json} → checkSingle a v = .ok w → checkSingle a w = .ok w
  | .obj members, w, h => by
    by_cases hc : a.type = .complex
    · rw [checkSingle_complex hc] at h ⊢
      obtain ⟨checked, hm, rfl⟩ := map_eq_ok.mp h
      obtain ⟨pairs, hp, rfl⟩ := map_eq_ok.mp hm
      -- the members come out in order, so that a second check does not move them
      rw [checkMembers_eq_self (Members.forall_ofList (checkPairs_checked members hp))
        (Members.sorted_ofList pairs)]
      rfl
    · rw [checkSingle_of_ne_complex hc] at h
      exact checkScalar_checked hc h
  | .null, _, h | .bool _, _, h | .num _, _, h | .str _, _, h | .arr _, _, h => by
    rw [checkSingle_of_not_object rfl, guard_eq_ok] at h
    exact checkScalar_checked (by simpa using h.1) h.2
termination_by v => (sizeOf v, 0)

theorem checkItems_checked {a : Attribute} :
    (items : List Json) → {checked : List Json} → checkItems a items = .ok checked →
      ∀ v ∈ checked, checkSingle a v = .ok v
  | [], _, h => by
    cases h
    simp
  | v :: rest, _, h => by
    obtain ⟨w, hw, h⟩ := bind_eq_ok.mp h
    obtain ⟨ws, hws, h⟩ := bind_eq_ok.mp h
    cases h
    exact List.forall_mem_cons.mpr ⟨checkSingle_checked v hw, checkItems_checked rest hws⟩
termination_by items => (sizeOf items, 0)

theorem checkElements_checked {a : Attribute} :
    (v : Json) → {checked : List Json} → checkElements a v = .ok checked →
      ∀ w ∈ checked, checkSingle a w = .ok w
  | .arr items, _, h => checkItems_checked items h
  | .null, _, h | .bool _, _, h | .num _, _, h | .str _, _, h | .obj _, _, h => by
    obtain ⟨w, hw, h⟩ := bind_eq_ok.mp h
    cases h
    simpa using checkSingle_checked _ hw
termination_by v => (sizeOf v, 1)

theorem checkPairs_checked {owner : String} {definitions : List Attribute} :
    (members : List (String × Json)) → {pairs : List (String × Json)} →
      checkPairs owner definitions members = .ok pairs →
      ∀ m ∈ pairs, CheckedMember definitions m
  | [], _, h => by
    cases h
    simp
  | (key, v) :: rest, _, h => by
    rw [checkPairs_cons] at h
    split at h
    · simp at h
    · rename_i a hfind
      split_ifs at h with hskip
      · exact checkPairs_checked rest h
      · obtain ⟨w, hw, h⟩ := bind_eq_ok.mp h
        obtain ⟨ws, hws, h⟩ := bind_eq_ok.mp h
        cases h
        -- the value may be read under another spelling, but is written under the canonical name
        have hvalue : checkValue a w = .ok w :=
          checkValue_checked_of (checkElements_checked v) (checkSingle_checked v) hw
        refine List.forall_mem_cons.mpr ⟨⟨⟨a, findAttribute?_name hfind, rfl, ?_, hvalue⟩, ?_⟩,
          checkPairs_checked rest hws⟩
        · simp_all
        · exact checkValue_not_null hw
termination_by members => (sizeOf members, 0)

end

theorem checkValue_checked {a : Attribute} {v w : Json} (h : checkValue a v = .ok w) :
    checkValue a w = .ok w :=
  checkValue_checked_of (checkElements_checked v) (checkSingle_checked v) h

/-! ### Checked objects -/

/-- The members of an object as a check leaves them. -/
structure CheckedObject (definitions : List Attribute) (members : Members Json) : Prop where
  checked : ∀ m ∈ members, CheckedMember definitions m
  sorted : Members.Sorted members

theorem checkMembers_checked {owner : String} {definitions : List Attribute} {v : Json}
    {members : Members Json} (h : checkMembers owner definitions v = .ok members) :
    CheckedObject definitions members := by
  cases v with
  | obj held =>
    obtain ⟨pairs, hp, rfl⟩ := map_eq_ok.mp h
    exact ⟨Members.forall_ofList (checkPairs_checked held hp), Members.sorted_ofList pairs⟩
  | _ => simp [checkMembers] at h

/-- An object is checked exactly when the check returns it. -/
theorem checkMembers_eq_self_iff {owner : String} {definitions : List Attribute}
    {members : Members Json} :
    checkMembers owner definitions (.obj members) = .ok members ↔
      CheckedObject definitions members :=
  ⟨checkMembers_checked, fun h => checkMembers_eq_self h.checked h.sorted⟩

/-- Only a complex attribute has objects for values. -/
theorem complex_of_checkSingle_obj {a : Attribute} {v : Json} {members : Members Json}
    (h : checkSingle a v = .ok (.obj members)) : a.type = .complex := by
  by_contra hc
  rw [checkSingle_of_ne_complex hc] at h
  have hnot := (admit?_admitted (checkScalar_eq_ok.mp h)).2.2
  cases hnot

theorem checkSingle_obj_self_iff {a : Attribute} {members : Members Json} :
    checkSingle a (.obj members) = .ok (.obj members) ↔
      a.type = .complex ∧ CheckedObject a.subAttributes members := by
  constructor
  · intro h
    have hc := complex_of_checkSingle_obj h
    rw [checkSingle_complex hc, map_eq_ok] at h
    obtain ⟨checked, hm, hobj⟩ := h
    cases hobj
    exact ⟨hc, checkMembers_checked hm⟩
  · rintro ⟨hc, hobj⟩
    rw [checkSingle_complex hc, map_eq_ok]
    exact ⟨members, checkMembers_eq_self_iff.mpr hobj, rfl⟩

theorem checkValue_object_self_iff {a : Attribute} (hm : a.multiValued = false)
    (hc : a.type = .complex) {members : Members Json} :
    checkValue a (.obj members) = .ok (.obj members) ↔ CheckedObject a.subAttributes members := by
  rw [checkValue_singular hm, checkSingle_obj_self_iff, and_iff_right hc]

theorem checkValue_list_self_iff {a : Attribute} (hm : a.multiValued = true) {v : Json} :
    checkValue a v = .ok v ↔ ∃ items, v = .arr items ∧ ∀ w ∈ items, checkSingle a w = .ok w := by
  rw [checkValue_several hm]
  constructor
  · intro h
    obtain ⟨items, hi, rfl⟩ := map_eq_ok.mp h
    exact ⟨items, rfl, checkElements_checked _ hi⟩
  · rintro ⟨items, rfl, hi⟩
    simp [checkElements, Json.flatten, Except.map, checkItems_eq_self hi]

end Roster
