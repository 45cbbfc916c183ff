import Roster.Proofs.Query.Ranked
import Roster.Proofs.Query.Typed

/-! When sorting by a key is sound. A check admits more than a key can read: whole numbers of more
than 63 bits, decimals out of range, and texts that say true or false. A resource with such a value
is equal to all that have one, so that the order is a preorder of checked resources exactly if there
is no such resource, or else no two values that differ. -/

namespace Roster

/-- Whether a value that a check admits at a type can be read at it. -/
def AttributeType.reads : AttributeType → Json → Bool
  | .integer, v => v.int64?.isSome
  | .decimal, v => v.decimal?.isSome
  | .boolean, v => v.bool?.isSome
  | _, _ => true

theorem AttributeType.reads_of_admit? {type : AttributeType} {v w : Json}
    (h : type.admit? v = some w) : (TypedValue.ofJson? type v).isSome = type.reads v := by
  cases type with
  | string | reference | binary =>
    obtain ⟨text, htext, -⟩ := Option.map_eq_some_iff.mp h
    simp [TypedValue.ofJson?, htext, reads]
  | dateTime =>
    obtain ⟨text, htext, hread⟩ := Option.bind_eq_some_iff.mp h
    obtain ⟨t, ht, -⟩ := Option.map_eq_some_iff.mp hread
    simp [TypedValue.ofJson?, Json.instant?, htext, ht, reads]
  | boolean | integer | decimal => simp [TypedValue.ofJson?, reads]
  | complex => cases h

/-- A value is compared with one that can be read if it can be read too. -/
theorem TypedValue.orderFrom?_isSome {type : AttributeType} {y : Json} {read : TypedValue}
    (h : TypedValue.ofJson? type y = some read) (caseExact : Bool) (x : Json) :
    (read.orderFrom? caseExact x).isSome = (TypedValue.ofJson? type x).isSome := by
  cases type with
  | complex => cases h
  | _ =>
    obtain ⟨_, -, rfl⟩ := Option.map_eq_some_iff.mp h
    simp [orderFrom?, ofJson?]

namespace SortKey

variable {r : Registry} {kind : Kind} {e : Expression} {k : SortKey} {P : Json → Prop} {v w : Json}

/-- Every value under the key is one that a definition with the traits of the key's attribute
admits. -/
def IsChecked (k : SortKey) (v : Json) : Prop :=
  ∀ y ∈ Json.collect [v] k.keys, ∃ a checked, a.traits = k.traits ∧ checkSingle a y = .ok checked

/-- The key orders some resources: the order is reversed where they are exchanged, it is transitive,
and equality is an equivalence that the order respects. -/
structure IsPreorder (k : SortKey) (P : Json → Prop) : Prop where
  swap : ∀ a b, P a → P b → k.order b a = (k.order a b).swap
  trans : ∀ a b c, P a → P b → P c → k.order a b ≠ .gt → k.order b c ≠ .gt → k.order a c ≠ .gt
  refl : ∀ a, P a → k.order a a = .eq
  congr : ∀ a b c, P a → P b → P c → k.order a b = .eq → k.order a c = k.order b c

/-- Resources that are compared by ranks are ordered. -/
theorem isPreorder_of_rank {β : Type} [LinearOrder β] (rank : Json → β)
    (h : ∀ v w, P v → P w → k.order v w = cmp (rank v) (rank w)) : k.IsPreorder P where
  swap a b ha hb := by rw [h a b ha hb, h b a hb ha, cmp_swap]
  trans a b c ha hb hc hab hbc := by
    rw [h a b ha hb] at hab
    rw [h b c hb hc] at hbc
    rw [h a c ha hc]
    rw [Ne, cmp_eq_gt_iff, not_lt] at hab hbc ⊢
    exact hab.trans hbc
  refl a ha := by rw [h a a ha ha, cmp_self_eq_eq]
  congr a b c ha hb hc hab := by
    rw [h a b ha hb, cmp_eq_eq_iff] at hab
    rw [h a c ha hc, h b c hb hc, hab]

/-- Where all values are equal, resources are ordered by whether they have one. -/
theorem isPreorder_of_equal
    (h : ∀ v w, P v → P w → (k.firstValue? v).isSome = true → (k.firstValue? w).isSome = true →
      k.order v w = .eq) : k.IsPreorder P := by
  refine isPreorder_of_rank (fun v => (k.firstValue? v).isNone) fun v w hv hw => ?_
  cases hfv : k.firstValue? v with
  | none =>
    cases hfw : k.firstValue? w <;>
    · rw [order, hfv, hfw]
      rfl
  | some x =>
    cases hfw : k.firstValue? w with
    | none =>
      rw [order, hfv, hfw]
      rfl
    | some y => exact h v w hv hw (by rw [hfv]; rfl) (by rw [hfw]; rfl)

/-- A value that cannot be read is equal to all others. -/
theorem order_unreadable {x y : Json} (hv : k.firstValue? v = some x)
    (hw : k.firstValue? w = some y)
    (h : TypedValue.ofJson? k.traits.type x = none ∨ TypedValue.ofJson? k.traits.type y = none) :
    k.order v w = .eq := by
  simp only [order, hv, hw]
  cases hread : TypedValue.ofJson? k.traits.type y with
  | none => rfl
  | some read =>
    have hx : TypedValue.ofJson? k.traits.type x = none := h.resolve_right (by simp [hread])
    have hnone : read.orderFrom? k.traits.caseExact x = none := by
      rw [← Option.isNone_iff_eq_none, ← Option.not_isSome,
        TypedValue.orderFrom?_isSome hread, hx]
      rfl
    rw [Option.bind_some, hnone]
    rfl

/-- One value that cannot be read makes all values equal, if the order is transitive. -/
theorem IsPreorder.equal (h : k.IsPreorder P) {u : Json} {z : Json} (hu : P u)
    (hz : k.firstValue? u = some z) (hread : TypedValue.ofJson? k.traits.type z = none)
    (hv : P v) (hw : P w) (hfv : (k.firstValue? v).isSome = true)
    (hfw : (k.firstValue? w).isSome = true) : k.order v w = .eq := by
  obtain ⟨x, hx⟩ := Option.isSome_iff_exists.mp hfv
  obtain ⟨y, hy⟩ := Option.isSome_iff_exists.mp hfw
  have hvu : k.order v u = .eq := order_unreadable hx hz (.inr hread)
  have huw : k.order u w = .eq := order_unreadable hz hy (.inl hread)
  exact (h.congr v u w hv hu hw hvu).trans huw

theorem IsChecked.reads (h : k.IsChecked v) (hc : k.traits.type ≠ .complex) {y : Json}
    (hy : k.firstValue? v = some y) :
    (TypedValue.ofJson? k.traits.type y).isSome = k.traits.type.reads y := by
  obtain ⟨a, checked, htraits, hcheck⟩ := h y (List.mem_of_find?_eq_some hy)
  have htype : a.type = k.traits.type := congrArg Traits.type htraits
  rw [checkSingle_of_ne_complex (htype ▸ hc), checkScalar_eq_ok, htype] at hcheck
  exact AttributeType.reads_of_admit? hcheck

/-- A key orders resources whose values have been checked if and only if it can read each first
value, or else finds all values equal. -/
theorem isPreorder_iff (hk : compile r kind e = .ok k) (hP : ∀ v, P v → k.IsChecked v) :
    k.IsPreorder P ↔
      (∀ v y, P v → k.firstValue? v = some y → k.traits.type.reads y = true) ∨
        ∀ v w, P v → P w → (k.firstValue? v).isSome = true → (k.firstValue? w).isSome = true →
          k.order v w = .eq := by
  have hcomplex : k.traits.type ≠ .complex := compile_ne_complex hk
  constructor
  · intro hpre
    by_contra hneither
    obtain ⟨hunread, hdiffer⟩ := not_or.mp hneither
    push Not at hunread
    obtain ⟨u, z, hu, hz, hreads⟩ := hunread
    have hnone : TypedValue.ofJson? k.traits.type z = none := by
      rw [← Option.isNone_iff_eq_none, ← Option.not_isSome, (hP u hu).reads hcomplex hz]
      simpa using hreads
    exact hdiffer fun v w hv hw hfv hfw => hpre.equal hu hz hnone hv hw hfv hfw
  · rintro (hreads | hequal)
    · obtain ⟨β, inst, rank, hrank⟩ := k.exists_rank
      refine isPreorder_of_rank rank fun v w hv hw => ?_
      have hreadable (u : Json) (hu : P u) : k.isReadable u = true := by
        rw [isReadable, Option.all_eq_true]
        intro y hy
        rw [(hP u hu).reads hcomplex hy]
        exact hreads u y hu hy
      exact hrank v w (hreadable v hv) (hreadable w hw)
    · exact isPreorder_of_equal hequal

/-- The number of a badge. -/
def badgeNumber : Attribute := Attribute.typed "number" .integer "The number of a badge"

def badgeRegistry : Registry :=
  Registry.core.extend ⟨.user, Schema.make "urn:example:badge" "Badge" "The badge of a user"
    [badgeNumber], false⟩

def badgePath : Expression := ⟨[.name "urn:example:badge", .name "number"]⟩

def badgeKey : SortKey := ⟨["urn:example:badge", "number"], badgeNumber.traits⟩

/-- A user with a badge. -/
def badged (number : Int) : Json :=
  .obj [("urn:example:badge", .obj [("number", Json.ofInt number)]), ("userName", .str "bj")]

theorem isChecked_badged (number : Int) : badgeKey.IsChecked (badged number) := by
  intro y hy
  obtain rfl : y = Json.ofInt number := List.mem_singleton.mp hy
  exact ⟨badgeNumber, Json.ofInt number, rfl, rfl⟩

/-- Badges of 63 bits are ordered. -/
theorem isPreorder_iff_badges : compile badgeRegistry .user badgePath = .ok badgeKey ∧
    (∀ v, (∃ n : Int, 0 ≤ n ∧ n < 2 ^ 63 ∧ v = badged n) → badgeKey.IsChecked v) ∧
      badgeKey.IsPreorder fun v => ∃ n : Int, 0 ≤ n ∧ n < 2 ^ 63 ∧ v = badged n := by
  have hkey : compile badgeRegistry .user badgePath = .ok badgeKey := by decide
  have hchecked : ∀ v, (∃ n : Int, 0 ≤ n ∧ n < 2 ^ 63 ∧ v = badged n) →
      badgeKey.IsChecked v := by
    rintro v ⟨n, -, -, rfl⟩
    exact isChecked_badged n
  refine ⟨hkey, hchecked, (isPreorder_iff hkey hchecked).mpr (.inl ?_)⟩
  rintro v y ⟨n, hlow, hhigh, rfl⟩ hy
  obtain rfl : Json.ofInt n = y := Option.some.inj hy
  have hbounds : -(twoTo 63 : Int) ≤ n ∧ n < twoTo 63 := by
    have hpower : (twoTo 63 : Int) = 2 ^ 63 := rfl
    omega
  change (signedWord? n).isSome = true
  rw [signedWord?, if_pos hbounds]
  rfl

/-- A badge of 64 bits is equal to all others, which are not equal to each other. -/
theorem not_isPreorder_badges : compile badgeRegistry .user badgePath = .ok badgeKey ∧
    (∀ v ∈ [badged 2, badged (2 ^ 63), badged 1], badgeKey.IsChecked v) ∧
      ¬ badgeKey.IsPreorder (· ∈ [badged 2, badged (2 ^ 63), badged 1]) := by
  refine ⟨by decide, ?_, fun hpre => ?_⟩
  · simp [isChecked_badged]
  · have hfirst : badgeKey.order (badged 2) (badged (2 ^ 63)) = .eq := by decide
    have hsecond : badgeKey.order (badged (2 ^ 63)) (badged 1) = .eq := by decide
    have hthird : badgeKey.order (badged 2) (badged 1) = .gt := by decide
    refine hpre.trans (badged 2) (badged (2 ^ 63)) (badged 1) ?_ ?_ ?_ ?_ ?_ hthird
    · exact List.mem_cons_self
    · exact List.mem_cons_of_mem _ List.mem_cons_self
    · exact List.mem_cons_of_mem _ (List.mem_cons_of_mem _ List.mem_cons_self)
    · rw [hfirst]
      decide
    · rw [hsecond]
      decide

end SortKey

end Roster
