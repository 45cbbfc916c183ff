/-!
Positions in a text count the bytes of its UTF-8 form. A slice between two positions exists only
when both lie in the text, in order, and neither cuts a character.
-/

namespace Roster

/-- Bytes of the UTF-8 form. -/
def utf8Length : List Char → Nat
  | [] => 0
  | c :: cs => c.utf8Size + utf8Length cs

@[simp] theorem utf8Length_nil : utf8Length [] = 0 := rfl

@[simp] theorem utf8Length_cons (c : Char) (cs : List Char) :
    utf8Length (c :: cs) = c.utf8Size + utf8Length cs := rfl

@[simp] theorem utf8Length_append (xs ys : List Char) :
    utf8Length (xs ++ ys) = utf8Length xs + utf8Length ys := by
  induction xs with
  | nil => simp
  | cons x xs ih => simp [ih, Nat.add_assoc]

/-- The text after its first `n` bytes, when those are whole characters. -/
def dropBytes? : List Char → Nat → Option (List Char)
  | cs, 0 => some cs
  | [], _ + 1 => none
  | c :: cs, n + 1 =>
    if c.utf8Size ≤ n + 1 then dropBytes? cs (n + 1 - c.utf8Size) else none

/-- The first `n` bytes of the text, when those are whole characters. -/
def takeBytes? : List Char → Nat → Option (List Char)
  | _, 0 => some []
  | [], _ + 1 => none
  | c :: cs, n + 1 =>
    if c.utf8Size ≤ n + 1 then (takeBytes? cs (n + 1 - c.utf8Size)).map (c :: ·) else none

/-- The characters between two byte positions. -/
def slice? (text : List Char) (start stop : Nat) : Option (List Char) :=
  if start ≤ stop then (dropBytes? text start).bind (takeBytes? · (stop - start)) else none

theorem dropBytes?_append (xs ys : List Char) : dropBytes? (xs ++ ys) (utf8Length xs) = some ys := by
  induction xs with
  | nil => cases ys <;> rfl
  | cons x xs ih =>
    have hx := x.utf8Size_pos
    obtain ⟨n, hn⟩ : ∃ n, x.utf8Size + utf8Length xs = n + 1 := ⟨_, (Nat.succ_pred (by omega)).symm⟩
    have hle : x.utf8Size ≤ n + 1 := by omega
    have hsub : n + 1 - x.utf8Size = utf8Length xs := by omega
    simp only [List.cons_append, utf8Length_cons, hn, dropBytes?, if_pos hle, hsub, ih]

theorem takeBytes?_append (xs ys : List Char) : takeBytes? (xs ++ ys) (utf8Length xs) = some xs := by
  induction xs with
  | nil => cases ys <;> rfl
  | cons x xs ih =>
    have hx := x.utf8Size_pos
    obtain ⟨n, hn⟩ : ∃ n, x.utf8Size + utf8Length xs = n + 1 := ⟨_, (Nat.succ_pred (by omega)).symm⟩
    have hle : x.utf8Size ≤ n + 1 := by omega
    have hsub : n + 1 - x.utf8Size = utf8Length xs := by omega
    simp only [List.cons_append, utf8Length_cons, hn, takeBytes?, if_pos hle, hsub, ih,
      Option.map_some]

/-- A slice between the ends of two initial parts is what the longer has beyond the shorter. -/
theorem slice?_append (xs ys zs : List Char) :
    slice? (xs ++ (ys ++ zs)) (utf8Length xs) (utf8Length (xs ++ ys)) = some ys := by
  simp only [slice?, utf8Length_append, Nat.le_add_right, if_true, dropBytes?_append,
    Option.bind_some, Nat.add_sub_cancel_left, takeBytes?_append]

end Roster
