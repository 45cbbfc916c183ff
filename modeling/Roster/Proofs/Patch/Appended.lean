import Roster.Proofs.Patch.Again

/-! Values appended to a list that are appended again. A value that the list holds is passed over,
but a primary one that is appended demotes the others, after which the list no longer holds them as
they were. -/

namespace Roster

/-- Objects of the same names hold a name in the same spelling. -/
theorem Members.key?_of_keys {α β : Type} {ms : Members α} {others : Members β}
    (h : keys ms = keys others) (name : String) : key? ms name = key? others name := by
  have hsome : (get? ms name).isSome = (get? others name).isSome := by
    rw [Bool.eq_iff_iff, isSome_get?, isSome_get?, h]
  rw [key?, key?, hsome, h]

/-! ### Primary values that are equal -/

namespace Json

theorem sameMembers_look : (xs ys : Members Json) → sameMembers xs ys = true →
    Members.keys xs = Members.keys ys ∧
      ∀ key, (Members.get? xs key).bind bool? = (Members.get? ys key).bind bool?
  | [], ys, h => by
    cases ys <;> simp_all [sameMembers]
  | (j, x) :: xs, [], h => by
    simp [sameMembers] at h
  | (j, x) :: xs, (k, y) :: ys, h => by
    simp only [sameMembers, Bool.and_eq_true, beq_iff_eq] at h
    obtain ⟨⟨rfl, hvalue⟩, hrest⟩ := h
    obtain ⟨hkeys, hlook⟩ := sameMembers_look xs ys hrest
    have hbool : x.bool? = y.bool? := by
      cases x <;> cases y <;> simp_all [same, bool?]
    refine ⟨congrArg (j :: ·) hkeys, fun key => ?_⟩
    simp only [Members.get?]
    split_ifs
    · simp [hbool]
    · exact hlook key

theorem isPrimary_of_same {v w : Json} (h : v.same w = true) : v.isPrimary = w.isPrimary := by
  cases v <;> cases w <;> simp only [same, Bool.false_eq_true] at h
  case obj.obj xs ys =>
    obtain ⟨hkeys, hlook⟩ := sameMembers_look xs ys h
    simp only [isPrimary, member?, members?, Option.bind_some, Members.find?, Option.bind_assoc,
      Members.key?_of_keys hkeys]
    congr 2
    funext key
    exact hlook key
  all_goals rfl

end Json

/-! ### Values that a list holds -/

/-- The list holds a value that is equal. -/
def Has (items : List Json) (v : Json) : Prop :=
  items.any (·.same v) = true

instance (items : List Json) (v : Json) : Decidable (Has items v) :=
  inferInstanceAs (Decidable (items.any (·.same v) = true))

section

variable {items values : List Json} {u v w : Json}

theorem has_iff : Has items v ↔ ∃ u ∈ items, u.same v = true :=
  List.any_eq_true

theorem Has.congr (h : Has items v) (hsame : v.same w = true) : Has items w := by
  obtain ⟨u, hu, huv⟩ := has_iff.mp h
  exact has_iff.mpr ⟨u, hu, Json.same_trans huv hsame⟩

theorem appendElement_of_has (h : Has items v) : appendElement items v = items :=
  if_pos h

theorem appendElement_of_not_has (h : ¬Has items v) : appendElement items v =
    if v.isPrimary then items.map Json.demoted ++ [v] else items ++ [v] :=
  if_neg h

theorem mem_appendElement (h : ¬Has items v) : u ∈ appendElement items v ↔
    u = v ∨ if v.isPrimary then ∃ w ∈ items, w.demoted = u else u ∈ items := by
  rw [appendElement_of_not_has h]
  split_ifs <;> simp [or_comm]

theorem has_appendElement_self (items : List Json) (v : Json) : Has (appendElement items v) v := by
  by_cases h : Has items v
  · rwa [appendElement_of_has h]
  · exact has_iff.mpr ⟨v, (mem_appendElement h).mpr (.inl rfl), Json.same_refl v⟩

/-- A value that is not primary is not touched by demotion. -/
theorem Has.appendElement (h : Has items u) (hu : u.isPrimary = false) (v : Json) :
    Has (appendElement items v) u := by
  by_cases hv : Has items v
  · rwa [appendElement_of_has hv]
  · obtain ⟨w, hw, hsame⟩ := has_iff.mp h
    have hplain : w.demoted = w :=
      demoted_eq_self_iff.mpr ((Json.isPrimary_of_same hsame).trans hu)
    refine has_iff.mpr ⟨w, (mem_appendElement hv).mpr (.inr ?_), hsame⟩
    split_ifs
    · exact ⟨w, hw, hplain⟩
    · exact hw

theorem Has.appendAll (h : Has items u) (hu : u.isPrimary = false) :
    Has (values.foldl Roster.appendElement items) u := by
  induction values generalizing items with
  | nil => exact h
  | cons v rest ih => exact ih (h.appendElement hu v)

theorem appendElement_length (items : List Json) (v : Json) :
    (appendElement items v).length = items.length + if Has items v then 0 else 1 := by
  by_cases h : Has items v
  · simp [appendElement_of_has h, h]
  · rw [appendElement_of_not_has h, if_neg h]
    split_ifs <;> simp

theorem appendAll_length_le (items values : List Json) :
    items.length ≤ (values.foldl appendElement items).length := by
  induction values generalizing items with
  | nil => exact le_rfl
  | cons v rest ih =>
    rw [List.foldl_cons]
    refine le_trans ?_ (ih (appendElement items v))
    rw [appendElement_length]
    exact Nat.le_add_right _ _

/-- A list that stays the same when values are appended has held them. -/
theorem appendAll_eq_self_iff :
    values.foldl appendElement items = items ↔ ∀ v ∈ values, Has items v := by
  constructor
  · intro h
    induction values with
    | nil => simp
    | cons v rest ih =>
      rw [List.foldl_cons] at h
      have hv : Has items v := by
        by_contra hnot
        have hlength := appendAll_length_le (appendElement items v) rest
        rw [h, appendElement_length, if_neg hnot] at hlength
        omega
      rw [appendElement_of_has hv] at h
      exact List.forall_mem_cons.mpr ⟨hv, ih h⟩
  · intro h
    induction values with
    | nil => rfl
    | cons v rest ih =>
      obtain ⟨hv, hrest⟩ := List.forall_mem_cons.mp h
      rw [List.foldl_cons, appendElement_of_has hv, ih hrest]

/-! ### Primary values among those that are appended -/

/-- The primary ones among the values that are appended to a list are all held by it, or they are
all equal. -/
def AddsOne (items values : List Json) : Prop :=
  (∀ v ∈ values, v.isPrimary = true → Has items v) ∨
    ∀ v ∈ values, ∀ w ∈ values, v.isPrimary = true → w.isPrimary = true → v.same w = true

instance (items values : List Json) : Decidable (AddsOne items values) :=
  inferInstanceAs (Decidable (_ ∨ _))

/-- Nothing is demoted while the primary values that are appended are held. -/
theorem has_appendAll_of_primary (h : ∀ v ∈ values, v.isPrimary = true → Has items v) :
    (∀ u, Has items u → Has (values.foldl appendElement items) u) ∧
      ∀ v ∈ values, Has (values.foldl appendElement items) v := by
  induction values generalizing items with
  | nil => simp
  | cons v rest ih =>
    obtain ⟨hv, hrest⟩ := List.forall_mem_cons.mp h
    have hkeep (u : Json) (hu : Has items u) : Has (appendElement items v) u := by
      by_cases hheld : Has items v
      · rwa [appendElement_of_has hheld]
      · have hplain : v.isPrimary ≠ true := fun hprimary => hheld (hv hprimary)
        obtain ⟨w, hw, hsame⟩ := has_iff.mp hu
        exact has_iff.mpr ⟨w, (mem_appendElement hheld).mpr (.inr (by rwa [if_neg hplain])), hsame⟩
    obtain ⟨hheld, hall⟩ := ih fun w hw hprimary => hkeep w (hrest w hw hprimary)
    exact ⟨fun u hu => hheld u (hkeep u hu),
      List.forall_mem_cons.mpr ⟨hheld v (has_appendElement_self items v), hall⟩⟩

/-- Either the primary values that are appended are held all along, or one of them is the only
primary one in the end. -/
theorem appendAll_primary (items values : List Json) :
    ((∀ v ∈ values, v.isPrimary = true → Has items v) ∧
      ∀ u ∈ values.foldl appendElement items, u.isPrimary = true → u ∈ items) ∨
    ∃ w ∈ values, ∀ u ∈ values.foldl appendElement items, u.isPrimary = true → u = w := by
  induction values generalizing items with
  | nil => exact .inl ⟨by simp, fun u hu _ => hu⟩
  | cons v rest ih =>
    rcases ih (appendElement items v) with ⟨hheld, hmem⟩ | ⟨w, hw, honly⟩
    · by_cases hv : Has items v
      · rw [appendElement_of_has hv] at hheld hmem
        rw [List.foldl_cons, appendElement_of_has hv]
        exact .inl ⟨List.forall_mem_cons.mpr ⟨fun _ => hv, hheld⟩, hmem⟩
      · cases hprimary : v.isPrimary with
        | true =>
          refine .inr ⟨v, List.mem_cons_self, fun u hu huprimary => ?_⟩
          rcases (mem_appendElement hv).mp (hmem u hu huprimary) with rfl | hdemoted
          · rfl
          · rw [if_pos hprimary] at hdemoted
            obtain ⟨w, -, rfl⟩ := hdemoted
            rw [isPrimary_demoted] at huprimary
            cases huprimary
        | false =>
          have hbefore {u : Json} (hu : u ∈ appendElement items v)
              (huprimary : u.isPrimary = true) : u ∈ items := by
            rcases (mem_appendElement hv).mp hu with rfl | hkept
            · rw [hprimary] at huprimary
              cases huprimary
            · rwa [if_neg (by simp [hprimary])] at hkept
          refine .inl ⟨List.forall_mem_cons.mpr ⟨fun h => by simp [hprimary] at h, ?_⟩, ?_⟩
          · intro w hw hwprimary
            obtain ⟨u, hu, hsame⟩ := has_iff.mp (hheld w hw hwprimary)
            have huprimary := (Json.isPrimary_of_same hsame).trans hwprimary
            exact has_iff.mpr ⟨u, hbefore hu huprimary, hsame⟩
          · exact fun u hu huprimary => hbefore (hmem u hu huprimary) huprimary
    · exact .inr ⟨w, List.mem_cons_of_mem v hw, honly⟩

/-- Values that have been appended are all held in the end exactly when no primary one among them
has demoted another. -/
theorem has_appendAll_iff :
    (∀ v ∈ values, Has (values.foldl appendElement items) v) ↔ AddsOne items values := by
  constructor
  · intro hall
    rcases appendAll_primary items values with ⟨hheld, -⟩ | ⟨w, -, honly⟩
    · exact .inl hheld
    · refine .inr fun v hv v' hv' hprimary hprimary' => ?_
      have hsame {x : Json} (hx : x ∈ values) (hxprimary : x.isPrimary = true) :
          w.same x = true := by
        obtain ⟨u, hu, hux⟩ := has_iff.mp (hall x hx)
        rwa [← honly u hu ((Json.isPrimary_of_same hux).trans hxprimary)]
      exact Json.same_trans (Json.same_symm (hsame hv hprimary)) (hsame hv' hprimary')
  · rintro (hheld | hsame)
    · exact (has_appendAll_of_primary hheld).2
    · induction values generalizing items with
      | nil => simp
      | cons v rest ih =>
        have hself := has_appendElement_self items v
        rw [List.foldl_cons]
        cases hprimary : v.isPrimary with
        | true =>
          have hheld : ∀ w ∈ rest, w.isPrimary = true → Has (appendElement items v) w :=
            fun w hw hwprimary => hself.congr
              (hsame v List.mem_cons_self w (List.mem_cons_of_mem v hw) hprimary hwprimary)
          obtain ⟨hkeep, hrest⟩ := has_appendAll_of_primary hheld
          exact List.forall_mem_cons.mpr ⟨hkeep v hself, hrest⟩
        | false =>
          refine List.forall_mem_cons.mpr ⟨hself.appendAll hprimary, ih fun w hw x hx => ?_⟩
          exact hsame w (List.mem_cons_of_mem v hw) x (List.mem_cons_of_mem v hx)

/-- Values that are appended again change nothing exactly when no primary one among them has
demoted another. -/
theorem appendAll_again :
    values.foldl appendElement (values.foldl appendElement items) =
      values.foldl appendElement items ↔ AddsOne items values :=
  appendAll_eq_self_iff.trans has_appendAll_iff

end

end Roster
