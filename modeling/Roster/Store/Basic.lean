import Roster.Store.Call

/-!
Resources by kind and identifier. Each has the number of its insertion, and lists are in the order
of these numbers.
-/

namespace Roster

/-- A resource and the number of its insertion. -/
structure Entry where
  number : Nat
  resource : Json
deriving Repr, Inhabited

structure Store where
  users : Members Entry
  groups : Members Entry
  next : Nat
deriving Repr, Inhabited

namespace Store

def empty : Store := ⟨[], [], 0⟩

/-- The entries of a kind, by identifier. -/
def entries (s : Store) : Kind → Members Entry
  | .user => s.users
  | .group => s.groups

def withEntries (s : Store) (kind : Kind) (entries : Members Entry) : Store :=
  match kind with
  | .user => { s with users := entries }
  | .group => { s with groups := entries }

def get? (s : Store) (kind : Kind) (id : String) : Option Json :=
  ((s.entries kind).get? id).map (·.resource)

/-- The resources of a kind in the order of their insertion. -/
def resources (s : Store) (kind : Kind) : List Json :=
  (((s.entries kind).map (·.2)).mergeSort fun a b => a.number ≤ b.number).map (·.resource)

def list (s : Store) (kind : Kind) (filter : Option Query) : List Json :=
  (s.resources kind).filter fun v => filter.all (·.holds v)

def count (s : Store) (kind : Kind) : Nat :=
  (s.entries kind).length

def find? (s : Store) (p : Probe) : Option Json :=
  ((s.entries p.kind).findSome? fun m =>
    if p.finds m.1 m.2.resource then some m.2.resource else none)

/-- Adds a resource under its own identifier, which must be new for its kind. -/
def insert (s : Store) (kind : Kind) (resource : Json) : Except StoreError Store :=
  match resource.identifier? with
  | none => .error .noIdentifier
  | some id =>
    if (s.get? kind id).isSome then .error (.conflict kind id)
    else
      let entries := (s.entries kind).insert id ⟨s.next, resource⟩
      .ok { s.withEntries kind entries with next := s.next + 1 }

/-- Puts a resource in the place of another one. -/
def update (s : Store) (kind : Kind) (id : String) (resource : Json) : Except StoreError Store :=
  match (s.entries kind).get? id with
  | none => .error .notFound
  | some e => .ok (s.withEntries kind ((s.entries kind).insert id { e with resource }))

def delete (s : Store) (kind : Kind) (id : String) : Except StoreError Store :=
  if (s.get? kind id).isSome then
    .ok (s.withEntries kind ((s.entries kind).erase id))
  else .error .notFound

/-- The reply to a change, and the store it leaves: the old one where the change is refused. -/
def reply {α : Type} (s : Store) (changed : Except StoreError Store) (value : α) :
    Except StoreError α × Store :=
  match changed with
  | .ok s' => (.ok value, s')
  | .error e => (.error e, s)

/-- Answers a call. -/
def answer (s : Store) : (c : Call) → c.Reply × Store
  | .get kind id => (s.get? kind id, s)
  | .list kind filter => (s.list kind filter, s)
  | .count kind => (s.count kind, s)
  | .find probe => (s.find? probe, s)
  | .insert kind resource => s.reply (s.insert kind resource) resource
  | .update kind id resource => s.reply (s.update kind id resource) resource
  | .delete kind id => s.reply (s.delete kind id) ()

end Store

/-! ### Work on a store, one call at a time

A script has a result, or makes a call and goes on with the reply. -/

inductive Script (α : Type) where
  | done (a : α)
  | call (c : Call) (next : c.Reply → Script α)

namespace Script

variable {α β : Type}

def bind : Script α → (α → Script β) → Script β
  | .done a, f => f a
  | .call c next, f => .call c fun reply => (next reply).bind f

instance : Monad Script where
  pure := .done
  bind := bind

/-- A single call. -/
def perform (c : Call) : Script c.Reply :=
  .call c .done

/-- The result on a store, and the store that is left. -/
def run : Script α → Store → α × Store
  | .done a, s => (a, s)
  | .call c next, s => (next (s.answer c).1).run (s.answer c).2

@[simp] theorem run_done (a : α) (s : Store) : (done a).run s = (a, s) := rfl

@[simp] theorem run_pure (a : α) (s : Store) : (pure a : Script α).run s = (a, s) := rfl

@[simp] theorem run_perform (c : Call) (s : Store) : (perform c).run s = s.answer c := rfl

@[simp] theorem run_bind (m : Script α) (f : α → Script β) (s : Store) :
    (m >>= f).run s = (f (m.run s).1).run (m.run s).2 := by
  change (m.bind f).run s = _
  induction m generalizing s with
  | done a => rfl
  | call c next ih => exact ih _ _

end Script

end Roster
