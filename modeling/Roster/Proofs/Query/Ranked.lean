import Mathlib.Data.Char
import Mathlib.Data.List.Lex
import Mathlib.Data.Prod.Lex
import Mathlib.Data.Rat.Floor
import Mathlib.Order.Compare
import Roster.Proofs.Sorting
import Roster.Service.Query

/-! The order of a sort key. Values that can be read at the type of an attribute have ranks in a
linear order, by which they are compared; so have the resources that hold them, and a resource
without a value ranks above all others. -/

namespace Roster

variable {v w : Json}

/-! ### Values -/

/-- The number that a decimal stands for. -/
def Decimal.value (d : Decimal) : ℚ := d.signed / 10 ^ d.scale

/-- Decimals are compared by what they stand for. -/
theorem Decimal.order_eq (a b : Decimal) : a.order b = cmp a.value b.value := by
  have hpos (n : Nat) : (0 : ℚ) < 10 ^ n := by positivity
  have hlt (x y : Decimal) : x.value < y.value ↔
      x.signed * tenTo y.scale < y.signed * tenTo x.scale := by
    rw [value, value, div_lt_div_iff₀ (hpos _) (hpos _)]
    simp only [tenTo]
    norm_cast
  rw [Decimal.order, ← cmp_eq_compare]
  unfold cmp cmpUsing
  simp only [hlt]

theorem Instant.order_eq (a b : Instant) :
    a.order b = cmp (toLex (a.seconds, a.nanos)) (toLex (b.seconds, b.nanos)) := by
  rw [Instant.order, ← cmp_eq_compare, ← cmp_eq_compare]
  unfold cmp cmpUsing
  simp only [Prod.Lex.toLex_lt_toLex]
  split_ifs <;> simp [Ordering.then] <;> omega

theorem orderText_eq (a b : List Char) :
    orderText a b = @cmp _ _ LinearOrder.toDecidableLT a b := by
  refine Eq.symm (Ordering.Compares.cmp_eq ?_)
  unfold orderText
  split_ifs with heq hlt
  · exact heq
  · exact hlt
  · exact lt_of_le_of_ne (not_lt.mp hlt) (Ne.symm heq)

theorem compare_bool_eq (a b : Bool) : compare a b = cmp a b := by
  cases a <;> cases b <;> decide

/-- Values that can be read are compared by ranks in a linear order. -/
def TypedValue.Ranked (type : AttributeType) (caseExact : Bool) : Prop :=
  ∃ (β : Type) (_ : LinearOrder β) (rank : Json → β), ∀ v w,
    (TypedValue.ofJson? type v).isSome = true → (TypedValue.ofJson? type w).isSome = true →
    (TypedValue.ofJson? type w).bind (TypedValue.orderFrom? · caseExact v) =
      some (cmp (rank v) (rank w))

/-- It is enough that what values are read as is compared by ranks. -/
theorem TypedValue.ranked_of {γ β : Type} [Inhabited γ] [LinearOrder β] {type : AttributeType}
    {caseExact : Bool} {read? : Json → Option γ} {wrap : γ → TypedValue} {order : γ → γ → Ordering}
    (rank : γ → β) (hrank : ∀ a b, order a b = cmp (rank a) (rank b))
    (hread : ∀ v, TypedValue.ofJson? type v = (read? v).map wrap)
    (horder : ∀ t v, (wrap t).orderFrom? caseExact v = (read? v).map (order · t)) :
    TypedValue.Ranked type caseExact := by
  refine ⟨β, inferInstance, fun v => rank ((read? v).getD default), fun v w hv hw => ?_⟩
  rw [hread, Option.isSome_map] at hv hw
  obtain ⟨a, ha⟩ := Option.isSome_iff_exists.mp hv
  obtain ⟨b, hb⟩ := Option.isSome_iff_exists.mp hw
  beta_reduce
  rw [hread, ha, hb]
  change (wrap b).orderFrom? caseExact v = some (cmp (rank a) (rank b))
  rw [horder, ha, Option.map_some, hrank]

theorem TypedValue.ranked (type : AttributeType) (caseExact : Bool) :
    TypedValue.Ranked type caseExact := by
  cases type with
  | string | reference | binary =>
    exact ranked_of (comparedText caseExact) (fun a b => orderText_eq _ _) (fun v => rfl)
      fun t v => rfl
  | boolean => exact ranked_of id compare_bool_eq (fun v => rfl) fun t v => rfl
  | integer =>
    exact ranked_of id (fun a b => (cmp_eq_compare a b).symm) (fun v => rfl) fun t v => rfl
  | decimal => exact ranked_of Decimal.value Decimal.order_eq (fun v => rfl) fun t v => rfl
  | dateTime => exact ranked_of _ Instant.order_eq (fun v => rfl) fun t v => rfl
  | complex => exact ⟨Unit, inferInstance, fun _ => (), fun v w hv => by cases hv⟩

/-! ### Resources -/

namespace SortKey

/-- Resources that can be read are ordered by ranks, of which one without a value has the
greatest. -/
theorem exists_rank (k : SortKey) :
    ∃ (β : Type) (_ : LinearOrder β) (rank : Json → WithTop β), ∀ v w,
      k.isReadable v = true → k.isReadable w = true → k.order v w = cmp (rank v) (rank w) := by
  obtain ⟨β, inst, rank, hrank⟩ := TypedValue.ranked k.traits.type k.traits.caseExact
  refine ⟨β, inst, fun v => ((k.firstValue? v).map rank : Option β), fun v w hv hw => ?_⟩
  unfold isReadable at hv hw
  unfold SortKey.order
  beta_reduce
  cases hfv : k.firstValue? v with
  | none =>
    cases hfw : k.firstValue? w with
    | none => exact (cmp_self_eq_eq (α := WithTop β) ⊤).symm
    | some y => exact (WithTop.coe_lt_top (rank y)).cmp_eq_gt.symm
  | some x =>
    cases hfw : k.firstValue? w with
    | none => exact (WithTop.coe_lt_top (rank x)).cmp_eq_lt.symm
    | some y =>
      rw [hfv] at hv
      rw [hfw] at hw
      have hvalues := congrArg (fun order : Option Ordering => order.getD .eq) (hrank x y hv hw)
      exact hvalues.trans (WithTop.coe_strictMono.cmp_map_eq (rank x) (rank y)).symm

end SortKey

namespace Service

/-- One resource precedes another when its rank is lower, or higher if the order is descending. -/
theorem precedes_ranks (key : SortKey) (descending : Bool) {resources : List Json}
    (h : ∀ v ∈ resources, key.isReadable v = true) :
    ∃ (β : Type) (_ : LinearOrder β) (rank : Json → β),
      Sorting.Ranks (precedes key descending) rank resources := by
  obtain ⟨β, inst, rank, hrank⟩ := key.exists_rank
  cases descending with
  | false =>
    refine ⟨WithTop β, inferInstance, rank, fun a ha b hb => ?_⟩
    rw [precedes, if_neg Bool.false_ne_true, hrank a b (h a ha) (h b hb), Bool.eq_iff_iff]
    rw [beq_iff_eq, cmp_eq_lt_iff, decide_eq_true_iff]
  | true =>
    refine ⟨(WithTop β)ᵒᵈ, inferInstance, OrderDual.toDual ∘ rank, fun a ha b hb => ?_⟩
    rw [precedes, if_pos rfl, hrank a b (h a ha) (h b hb), cmp_swap, Bool.eq_iff_iff]
    rw [beq_iff_eq, cmp_eq_lt_iff, decide_eq_true_iff]
    exact Iff.rfl

/-- Resources that can be read are sorted stably, in either direction. -/
theorem sorted_stable (key : Option SortKey) (descending : Bool) {resources : List Json}
    (h : ∀ k ∈ key, ∀ v ∈ resources, k.isReadable v = true) :
    Sorting.Stable (fun a b => key.any (precedes · descending a b)) resources
      (sorted key descending resources) := by
  cases key with
  | none => exact ⟨.refl _, List.pairwise_of_forall fun _ _ => rfl, fun _ _ => rfl⟩
  | some key =>
    have hread := h key rfl
    obtain ⟨β, inst, rank, hranks⟩ := precedes_ranks key descending hread
    rw [sorted, if_pos (List.all_eq_true.mpr hread)]
    exact Sorting.placed_stable hranks

end Service

end Roster
