/-! What the success of steps in a row says of each step, and two computations side by side, of
which the second gives the image of what the first gives. Where one fails the other fails too, with
an error of the same kind. -/

namespace Roster

universe u v

variable {ε : Type u} {α β : Type u}

theorem bind_eq_ok {x : Except ε α} {f : α → Except ε β} {b : β} :
    x >>= f = .ok b ↔ ∃ a, x = .ok a ∧ f a = .ok b := by
  cases x <;> simp [bind, Except.bind]

theorem map_eq_ok {x : Except ε α} {f : α → β} {b : β} :
    x.map f = .ok b ↔ ∃ a, x = .ok a ∧ f a = b := by
  cases x <;> simp [Except.map]

/-- A step behind a test succeeds when the test does not fail and the step succeeds. -/
theorem guard_eq_ok {c : Prop} [Decidable c] {e : ε} {x : Except ε α} {a : α} :
    (if c then .error e else x) = .ok a ↔ ¬c ∧ x = .ok a := by
  by_cases h : c <;> simp [h]

theorem exists_ok {x : Except ε α} (h : x.toBool = true) : ∃ a, x = .ok a := by
  cases x with
  | ok a => exact ⟨a, rfl⟩
  | error e => simp [Except.toBool] at h

instance decidableEqOk {α : Type u} [DecidableEq α] (x : Except ε α) (a : α) :
    Decidable (x = .ok a) :=
  match x with
  | .ok b => decidable_of_iff (b = a) (by simp)
  | .error _ => isFalse (by simp)

/-! ### Computations side by side -/

variable {γ δ : Type u} {κ : Type v} {kind : ε → κ}

/-- The second computation succeeds as the first does, with the image of its result, or fails as the
first does, with an error of the same kind. -/
inductive Mirrors (kind : ε → κ) (g : α → β) : Except ε α → Except ε β → Prop where
  | ok (a : α) : Mirrors kind g (.ok a) (.ok (g a))
  | error {e e' : ε} (h : kind e = kind e') : Mirrors kind g (.error e) (.error e')

namespace Mirrors

variable {g : α → β} {h : γ → δ} {x : Except ε α} {y : Except ε β}

theorem of_ok {a : α} {b : β} (hb : g a = b) : Mirrors kind g (.ok a) (.ok b) :=
  hb ▸ .ok a

/-- Steps that mirror each other do so in a row. -/
theorem bind {f : α → Except ε γ} {f' : β → Except ε δ} (hx : Mirrors kind g x y)
    (hf : ∀ a, x = .ok a → Mirrors kind h (f a) (f' (g a))) :
    Mirrors kind h (x >>= f) (y >>= f') := by
  cases hx with
  | ok a => exact hf a rfl
  | error he => exact .error he

theorem map {f : α → γ} {f' : β → δ} (hx : Mirrors kind g x y)
    (hf : ∀ a, x = .ok a → h (f a) = f' (g a)) : Mirrors kind h (x.map f) (y.map f') := by
  cases hx with
  | ok a => exact .of_ok (hf a rfl)
  | error he => exact .error he

/-- Both computations go the same way at a test. -/
theorem test {p : Prop} {hp hp' : Decidable p} {x₁ x₂ : Except ε α} {y₁ y₂ : Except ε β}
    (hyes : p → Mirrors kind g x₁ y₁) (hno : ¬p → Mirrors kind g x₂ y₂) :
    Mirrors kind g (@ite _ p hp x₁ x₂) (@ite _ p hp' y₁ y₂) := by
  by_cases h : p
  · rw [if_pos h, if_pos h]
    exact hyes h
  · rw [if_neg h, if_neg h]
    exact hno h

theorem mapError_eq (hx : Mirrors kind g x y) :
    y.mapError kind = (x.map g).mapError kind := by
  cases hx with
  | ok a => rfl
  | error he => exact congrArg Except.error he.symm

/-- What the two may come to. -/
theorem outcomes (hx : Mirrors kind g x y) :
    (∃ e e', x = .error e ∧ y = .error e' ∧ kind e = kind e') ∨ ∃ a, x = .ok a ∧ y = .ok (g a) := by
  cases hx with
  | ok a => exact .inr ⟨a, rfl, rfl⟩
  | error he => exact .inl ⟨_, _, rfl, rfl, he⟩

/-- Two computations with one mirror image fail together, or succeed with results of one image. -/
theorem common {x' : Except ε γ} {g' : γ → β} (hx : Mirrors kind g x y)
    (hx' : Mirrors kind g' x' y) :
    (∃ e e', x = .error e ∧ x' = .error e' ∧ kind e = kind e') ∨
      ∃ a a', x = .ok a ∧ x' = .ok a' ∧ g a = g' a' := by
  rcases hx.outcomes with ⟨e, e', rfl, rfl, he⟩ | ⟨a, rfl, rfl⟩
  · rcases hx'.outcomes with ⟨f, f', rfl, hf, hkind⟩ | ⟨a', rfl, ha'⟩
    · cases hf
      exact .inl ⟨e, f, rfl, rfl, he.trans hkind.symm⟩
    · cases ha'
  · rcases hx'.outcomes with ⟨f, f', rfl, hf, hkind⟩ | ⟨a', rfl, ha'⟩
    · cases hf
    · exact .inr ⟨a, a', rfl, rfl, Except.ok.inj ha'⟩

theorem refl (x : Except ε α) : Mirrors kind id x x := by
  cases x with
  | ok a => exact .ok a
  | error e => exact .error rfl

end Mirrors

end Roster
