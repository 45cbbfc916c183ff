import Roster.Service.Error
import Roster.Store.Basic

/-!
Work on a store that may fail: the calls that requests make, and what becomes of refusals.
-/

namespace Roster

/-- Work on a store that may fail. -/
abbrev Task := ExceptT ServiceError Script

namespace Task

/-- Makes a call. -/
def ask (c : Call) : Task c.Reply :=
  ExceptT.lift (Script.perform c)

/-- Makes a call that the store may refuse. -/
def change {α : Type} (reply : Script (Except StoreError α)) : Task α :=
  ExceptT.mk do
    match ← reply with
    | .ok v => pure (.ok v)
    | .error e => pure (.error (.store e))

def get (kind : Kind) (id : String) : Task (Option Json) :=
  ask (.get kind id)

def list (kind : Kind) : Task (List Json) :=
  ask (.list kind none)

def find (probe : Probe) : Task (Option Json) :=
  ask (.find probe)

def insert (kind : Kind) (resource : Json) : Task Json :=
  change (Script.perform (.insert kind resource))

def update (kind : Kind) (id : String) (resource : Json) : Task Json :=
  change (Script.perform (.update kind id resource))

/-- A resource that must exist. -/
def fetch (kind : Kind) (id : String) : Task Json := do
  match ← get kind id with
  | some resource => pure resource
  | none => throw (.notFound kind id)

/-- A result known without the store. -/
def ofExcept {α : Type} (result : Except ServiceError α) : Task α :=
  ExceptT.mk (pure result)

/-- The outcome on a store, and the store that is left. -/
def run {α : Type} (t : Task α) (s : Store) : Except ServiceError α × Store :=
  Script.run (ExceptT.run t) s

end Task

/-- A change: what is checked beforehand, and then the work under a lock. -/
abbrev Change (α : Type) := Except ServiceError (Task α)

/-- A change as one piece of work. -/
def Change.task {α : Type} (c : Change α) : Task α :=
  match c with
  | .ok t => t
  | .error e => throw e

end Roster
