import Roster.Proofs.Success
import Roster.Service.Task

/-! Runs of tasks: what each step leaves of the store, and the two ways in which a task can be sure
to leave it alone when it fails. -/

namespace Roster

namespace Task

variable {α β : Type} {s s' : Store} {e : ServiceError} {b : β} {t : Task α} {f : α → Task β}

@[simp] theorem run_pure (a : α) (s : Store) : Task.run (pure a) s = (.ok a, s) := rfl

@[simp] theorem run_throw (e : ServiceError) (s : Store) :
    Task.run (throw e : Task α) s = (.error e, s) := rfl

theorem run_bind (t : Task α) (f : α → Task β) (s : Store) :
    Task.run (t >>= f) s = match t.run s with
      | (.ok a, s') => (f a).run s'
      | (.error e, s') => (.error e, s') := by
  change Script.run (ExceptT.run t >>= ExceptT.bindCont f) s = _
  rw [Script.run_bind]
  change _ = match Script.run (ExceptT.run t) s with
    | (.ok a, s') => (f a).run s'
    | (.error e, s') => (.error e, s')
  cases h : Script.run (ExceptT.run t) s with
  | mk result s' => cases result <;> rfl

@[simp] theorem run_ask (c : Call) (s : Store) :
    (ask c).run s = (.ok (s.answer c).1, (s.answer c).2) := rfl

@[simp] theorem run_get (kind : Kind) (id : String) (s : Store) :
    (get kind id).run s = (.ok (s.get? kind id), s) := rfl

@[simp] theorem run_list (kind : Kind) (s : Store) :
    (list kind).run s = (.ok (s.list kind none), s) := rfl

@[simp] theorem run_find (probe : Probe) (s : Store) :
    (find probe).run s = (.ok (s.find? probe), s) := rfl

@[simp] theorem run_ofExcept (result : Except ServiceError α) (s : Store) :
    (ofExcept result).run s = (result, s) := rfl

theorem run_insert (kind : Kind) (v : Json) (s : Store) :
    (insert kind v).run s = match s.insert kind v with
      | .ok s' => (.ok v, s')
      | .error e => (.error (.store e), s) := by
  change Script.run (Script.perform (.insert kind v) >>= _) s = _
  rw [Script.run_bind, Script.run_perform, Store.answer]
  cases s.insert kind v <;> rfl

theorem run_update (kind : Kind) (id : String) (v : Json) (s : Store) :
    (update kind id v).run s = match s.update kind id v with
      | .ok s' => (.ok v, s')
      | .error e => (.error (.store e), s) := by
  change Script.run (Script.perform (.update kind id v) >>= _) s = _
  rw [Script.run_bind, Script.run_perform, Store.answer]
  cases s.update kind id v <;> rfl

theorem bind_run_ok :
    Task.run (t >>= f) s = (.ok b, s') ↔
      ∃ a s₁, t.run s = (.ok a, s₁) ∧ (f a).run s₁ = (.ok b, s') := by
  rw [run_bind]
  cases h : t.run s with
  | mk result s₁ => cases result <;> simp [and_assoc]

theorem bind_run_error :
    Task.run (t >>= f) s = (.error e, s') ↔
      t.run s = (.error e, s') ∨ ∃ a s₁, t.run s = (.ok a, s₁) ∧ (f a).run s₁ = (.error e, s') := by
  rw [run_bind]
  cases h : t.run s with
  | mk result s₁ => cases result <;> simp [and_assoc]

/-! ### Tasks that leave the store alone -/

/-- The task changes nothing, whether or not it fails. -/
def Reads (t : Task α) : Prop :=
  ∀ s, (t.run s).2 = s

/-- The task changes nothing when it fails. -/
def Atomic (t : Task α) : Prop :=
  ∀ s e s', t.run s = (.error e, s') → s' = s

/-- The task never fails. -/
def Sure (t : Task α) : Prop :=
  ∀ s, ∃ a s', t.run s = (.ok a, s')

theorem Reads.pure (a : α) : Reads (pure a : Task α) := fun _ => rfl

theorem Reads.throw (e : ServiceError) : Reads (throw e : Task α) := fun _ => rfl

theorem Reads.get (kind : Kind) (id : String) : (get kind id).Reads := fun _ => rfl

theorem Reads.list (kind : Kind) : (list kind).Reads := fun _ => rfl

theorem Reads.find (probe : Probe) : (find probe).Reads := fun _ => rfl

theorem Reads.ofExcept (result : Except ServiceError α) : (ofExcept result).Reads := fun _ => rfl

theorem Reads.bind (ht : t.Reads) (hf : ∀ a, (f a).Reads) : Reads (t >>= f) := by
  intro s
  have hs := ht s
  rw [run_bind]
  cases h : t.run s with
  | mk result s' =>
    obtain rfl : s' = s := by simpa [h] using hs
    cases result with
    | ok a => exact hf a s'
    | error e => rfl

theorem Reads.run_ok {a : α} (ht : t.Reads) (h : t.run s = (.ok a, s')) : s' = s := by
  simpa [h] using ht s

/-- Behind reading, the task fails with the store as it was or goes on from there. -/
theorem Reads.bind_run (ht : t.Reads) (f : α → Task β) (s : Store) :
    (∃ e, t.run s = (.error e, s) ∧ Task.run (t >>= f) s = (.error e, s)) ∨
      ∃ a, t.run s = (.ok a, s) ∧ Task.run (t >>= f) s = (f a).run s := by
  have hs := ht s
  rw [run_bind]
  cases h : t.run s with
  | mk result s' =>
    obtain rfl : s' = s := by simpa [h] using hs
    cases result with
    | ok a => exact .inr ⟨a, rfl, rfl⟩
    | error e => exact .inl ⟨e, rfl, rfl⟩

/-- Reading at the end leaves what is left before. -/
theorem run_bind_reads (hf : ∀ a, (f a).Reads) (t : Task α) (s : Store) :
    (Task.run (t >>= f) s).2 = (t.run s).2 := by
  rw [run_bind]
  cases h : t.run s with
  | mk result s' =>
    cases result with
    | ok a => exact hf a s'
    | error e => rfl

theorem Reads.atomic (ht : t.Reads) : t.Atomic := by
  intro s e s' h
  simpa [h] using ht s

theorem Atomic.throw (e : ServiceError) : Atomic (throw e : Task α) := (Reads.throw e).atomic

theorem Atomic.insert (kind : Kind) (v : Json) : (insert kind v).Atomic := by
  intro s e s' h
  rw [run_insert] at h
  cases hi : s.insert kind v <;> simp_all

theorem Atomic.update (kind : Kind) (id : String) (v : Json) : (update kind id v).Atomic := by
  intro s e s' h
  rw [run_update] at h
  cases hu : s.update kind id v <;> simp_all

/-- Reading first does not spoil what follows. -/
theorem Atomic.after_reads (ht : t.Reads) (hf : ∀ a, (f a).Atomic) : Atomic (t >>= f) := by
  intro s e s' h
  rcases bind_run_error.mp h with h | ⟨a, s₁, ha, h⟩
  · exact ht.atomic s e s' h
  · exact (hf a s₁ e s' h).trans (ht.run_ok ha)

/-- Nothing behind a write may fail. -/
theorem Atomic.before_sure (ht : t.Atomic) (hf : ∀ a, (f a).Sure) : Atomic (t >>= f) := by
  intro s e s' h
  rcases bind_run_error.mp h with h | ⟨a, s₁, -, h⟩
  · exact ht s e s' h
  · obtain ⟨b, s₂, hb⟩ := hf a s₁
    simp [hb] at h

theorem Sure.pure (a : α) : Sure (pure a : Task α) := fun s => ⟨a, s, rfl⟩

theorem Sure.list (kind : Kind) : (list kind).Sure := fun s => ⟨_, s, rfl⟩

theorem Sure.bind (ht : t.Sure) (hf : ∀ a, (f a).Sure) : Sure (t >>= f) := by
  intro s
  obtain ⟨a, s₁, ha⟩ := ht s
  obtain ⟨b, s₂, hb⟩ := hf a s₁
  exact ⟨b, s₂, bind_run_ok.mpr ⟨a, s₁, ha, hb⟩⟩

end Task

end Roster
