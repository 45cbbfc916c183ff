import Roster.Json.Basic
import Roster.Proofs.Members

/-! Members put into a value and taken out of it: what is found under a name afterwards. Equality of
values: `Json.same` is an equivalence, and equality as trees can be decided. The latter is finer, as
under the former the two zeros are equal. -/

namespace Roster

namespace Json

variable {v x : Json} {key other : String}

theorem isObject_iff : v.isObject = true ↔ ∃ ms, v = .obj ms := by
  cases v <;> simp [isObject]

@[simp] theorem isObject_put : (v.put key x).isObject = v.isObject := by
  cases v <;> rfl

theorem isObject_of_get? (h : v.get? key = some x) : v.isObject = true := by
  cases v <;> simp_all [get?, members?, isObject]

theorem get?_put_self (h : v.isObject = true) : (v.put key x).get? key = some x := by
  obtain ⟨ms, rfl⟩ := isObject_iff.mp h
  exact Members.get?_insert_self ms key x

theorem get?_put_of_ne (h : other ≠ key) : (v.put key x).get? other = v.get? other := by
  cases v with
  | obj ms => exact Members.get?_insert_of_ne ms x h
  | _ => rfl

theorem get?_without_of_ne (h : other ≠ key) : (v.without key).get? other = v.get? other := by
  cases v with
  | obj ms => exact Members.get?_erase_of_ne ms h
  | _ => rfl

theorem get?_without_self : (v.without key).get? key = none := by
  cases v with
  | obj ms => exact Members.get?_erase_self ms key
  | _ => rfl

theorem without_put_self : (v.put key x).without key = v.without key := by
  cases v with
  | obj ms => exact congrArg obj (Members.erase_insert_self ms key x)
  | _ => rfl

/-- A member of exactly this name is found for the name in whatever case. -/
theorem member?_of_get? (h : v.get? key = some x) : v.member? key = some x := by
  cases v with
  | obj ms => exact Members.find?_of_get? h
  | _ => simp [get?, members?] at h

end Json

theorem Binary64.same_congr {x y : Binary64} (h : x.same y = true) (z : Binary64) :
    x.same z = y.same z := by
  have zero {w : Binary64} (hw : w.isZero = true) : w.same z = z.isZero := by
    by_cases hz : w = z
    · simp [Binary64.same, ← hz, hw]
    · simp [Binary64.same, hz, hw]
  simp only [Binary64.same, Bool.or_eq_true, beq_iff_eq, Bool.and_eq_true] at h
  rcases h with rfl | ⟨hx, hy⟩
  · rfl
  · exact (zero hx).trans (zero hy).symm

theorem Number.same_congr {m n : Number} (h : m.same n = true) (o : Number) :
    m.same o = n.same o := by
  cases m <;> cases n <;> cases o <;> simp [Number.same] at h ⊢
  · rw [h]
  · exact Binary64.same_congr h _

namespace Json

mutual

def identical (a b : Json) : Bool :=
  match a, b with
  | .null, .null => true
  | .bool x, .bool y => x == y
  | .num x, .num y => x == y
  | .str x, .str y => x == y
  | .arr xs, .arr ys => identicalItems xs ys
  | .obj xs, .obj ys => identicalMembers xs ys
  | _, _ => false

def identicalItems (xs ys : List Json) : Bool :=
  match xs, ys with
  | [], [] => true
  | x :: xs, y :: ys => x.identical y && identicalItems xs ys
  | _, _ => false

def identicalMembers (xs ys : List (String × Json)) : Bool :=
  match xs, ys with
  | [], [] => true
  | (j, x) :: xs, (k, y) :: ys => j == k && x.identical y && identicalMembers xs ys
  | _, _ => false

end

mutual

theorem identical_iff : (a b : Json) → (a.identical b = true ↔ a = b)
  | .null, b => by cases b <;> simp [identical]
  | .bool _, b => by cases b <;> simp [identical]
  | .num _, b => by cases b <;> simp [identical]
  | .str _, b => by cases b <;> simp [identical]
  | .arr xs, b => by
    cases b with
    | arr ys => simpa [identical] using identicalItems_iff xs ys
    | _ => simp [identical]
  | .obj xs, b => by
    cases b with
    | obj ys => simpa [identical] using identicalMembers_iff xs ys
    | _ => simp [identical]

theorem identicalItems_iff : (xs ys : List Json) → (identicalItems xs ys = true ↔ xs = ys)
  | [], ys => by cases ys <;> simp [identicalItems]
  | x :: xs, ys => by
    cases ys with
    | nil => simp [identicalItems]
    | cons y ys => simp [identicalItems, identical_iff x y, identicalItems_iff xs ys]

theorem identicalMembers_iff :
    (xs ys : List (String × Json)) → (identicalMembers xs ys = true ↔ xs = ys)
  | [], ys => by cases ys <;> simp [identicalMembers]
  | (j, x) :: xs, ys => by
    cases ys with
    | nil => simp [identicalMembers]
    | cons y ys =>
      obtain ⟨k, y⟩ := y
      simp [identicalMembers, identical_iff x y, identicalMembers_iff xs ys]

end

mutual

theorem same_refl : (v : Json) → v.same v = true
  | .null => rfl
  | .bool b => by simp [same]
  | .num n => by cases n <;> simp [same, Number.same, Binary64.same]
  | .str s => by simp [same]
  | .arr items => by simpa [same] using sameItems_refl items
  | .obj members => by simpa [same] using sameMembers_refl members

theorem sameItems_refl : (items : List Json) → sameItems items items = true
  | [] => rfl
  | v :: rest => by simp [sameItems, same_refl v, sameItems_refl rest]

theorem sameMembers_refl : (members : List (String × Json)) → sameMembers members members = true
  | [] => rfl
  | (k, v) :: rest => by simp [sameMembers, same_refl v, sameMembers_refl rest]

end

mutual

theorem same_congr : (a b c : Json) → a.same b = true → a.same c = b.same c
  | .null, b, c, h => by
    cases b <;> simp [same] at h
    rfl
  | .bool x, b, c, h => by
    cases b <;> simp [same] at h
    rw [h]
  | .str x, b, c, h => by
    cases b <;> simp [same] at h
    rw [h]
  | .num m, b, c, h => by
    cases b <;> cases c <;> simp [same] at h ⊢
    exact Number.same_congr h _
  | .arr xs, b, c, h => by
    cases b <;> cases c <;> simp [same] at h ⊢
    exact sameItems_congr _ _ _ h
  | .obj xs, b, c, h => by
    cases b <;> cases c <;> simp [same] at h ⊢
    exact sameMembers_congr _ _ _ h

theorem sameItems_congr : (xs ys zs : List Json) → sameItems xs ys = true →
    sameItems xs zs = sameItems ys zs
  | [], ys, zs, h => by cases ys <;> simp_all [sameItems]
  | x :: xs, ys, zs, h => by
    cases ys <;> cases zs <;> simp [sameItems] at h ⊢
    rw [same_congr _ _ _ h.1, sameItems_congr _ _ _ h.2]

theorem sameMembers_congr : (xs ys zs : List (String × Json)) → sameMembers xs ys = true →
    sameMembers xs zs = sameMembers ys zs
  | [], ys, zs, h => by cases ys <;> simp_all [sameMembers]
  | (j, x) :: xs, ys, zs, h => by
    cases ys <;> cases zs <;> simp [sameMembers] at h ⊢
    rw [h.1.1, same_congr _ _ _ h.1.2, sameMembers_congr _ _ _ h.2]

end

theorem same_symm {a b : Json} (h : a.same b = true) : b.same a = true := by
  rw [← same_congr a b a h, same_refl]

theorem same_trans {a b c : Json} (h : a.same b = true) (h' : b.same c = true) :
    a.same c = true := by
  rw [same_congr a b c h, h']

instance : DecidableEq Json := fun a b => decidable_of_iff _ (identical_iff a b)

end Json

end Roster
