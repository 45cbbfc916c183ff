import Roster.Proofs.Patch.Rules

/-! What an addition, a replacement and a removal do at a target, a run of operations as a run of
single steps, each of which assigns or removes at one path, and the rule by which a property of
resources is kept along such a run. -/

namespace Roster

/-! ### What is done at a target -/

/-- The edit that a removal makes in the object which holds the attribute. -/
def Target.removal (t : Target) (a : Attribute) (value : Option Json) : Edit (Members Json) :=
  fun holder => do
    let holder ← t.removeIn a value holder
    .ok (Members.dropEmptyList a.name holder)

/-- A resource whose extension, if the target lies in one, goes when it is left empty. -/
def Target.dropIn (t : Target) (resource : Json) : Json :=
  match t.extension with
  | some urn => resource.dropEmptyExtension urn
  | none => resource

namespace Target

/-- What an addition does: members are merged into those that an extension holds, or an edit is made
where the attribute lies. -/
inductive Added (t : Target) (value resource : Json) : Json → Prop where
  | whole {incoming held : Members Json} (hd : t.definition = none)
      (hi : checkMembers t.name t.members value = .ok incoming)
      (hheld : Members.find? resource.root t.name = some (.obj held) ∨ held = []) :
      Added t value resource ((Json.obj (Members.putHeld resource.root t.name
        (.obj (Members.setAll held incoming)))).declare t.name)
  | part {a : Attribute} {v : Json} (hd : t.definition = some a)
      (hedit : resource.editAt t.container (t.addIn a value) = .ok v) :
      Added t value resource (t.declareIn v)

/-- What a replacement does: an extension is set, under one spelling of its name, or an edit is made
where the attribute lies. -/
inductive Replaced (t : Target) (value resource : Json) : Json → Prop where
  | whole {incoming : Members Json} (hd : t.definition = none)
      (hi : checkMembers t.name t.members value = .ok incoming) :
      Replaced t value resource
        ((Json.obj (Members.set resource.root t.name (.obj incoming))).declare t.name)
  | part {a : Attribute} {v : Json} (hd : t.definition = some a)
      (hmatch : t.selection ≠ .elements [])
      (hedit : resource.editAt t.container (t.replaceIn a value) = .ok v) :
      Replaced t value resource (t.declareIn v)

/-- What a removal does: an extension goes that is not required, nothing is there to be removed, or
an edit is made where the attribute lies. -/
inductive Removed (r : Registry) (kind : Kind) (t : Target) (value : Option Json)
    (resource : Json) : Json → Prop where
  | whole (hd : t.definition = none)
      (hoptional : ∀ urn ∈ r.requiredExtensions kind, sameName urn t.name = false) :
      Removed r kind t value resource ((resource.dropMember t.name).undeclare t.name)
  | absent {a : Attribute} (hd : t.definition = some a) (hmatch : t.selection ≠ .elements [])
      (hnone : resource.objectAt? t.container = none) : Removed r kind t value resource resource
  | part {a : Attribute} {v : Json} (hd : t.definition = some a)
      (hmatch : t.selection ≠ .elements [])
      (hsome : (resource.objectAt? t.container).isSome = true)
      (hedit : resource.editAt t.container (t.removal a value) = .ok v) :
      Removed r kind t value resource (t.dropIn v)

variable {t : Target} {value resource resource' : Json}

theorem requireMatch_eq_ok (h : liftFault t.requireMatch = .ok ()) :
    t.selection ≠ .elements [] := by
  intro hsel
  simp [requireMatch, hsel, liftFault] at h

theorem add_eq_ok (h : t.add value resource = .ok resource') :
    Added t value resource resource' := by
  unfold Target.add at h
  split at h
  case h_1 hd =>
    obtain ⟨incoming, hi, h⟩ := bind_eq_ok.mp h
    obtain ⟨v, hv, h⟩ := bind_eq_ok.mp h
    cases h
    obtain ⟨root', hedit, rfl⟩ := Json.editObject_eq_ok hv
    obtain ⟨held, inner, hheld, hinner, rfl⟩ := Members.editObject_eq_ok hedit
    cases hinner
    exact .whole hd hi hheld
  case h_2 a hd =>
    obtain ⟨v, hv, h⟩ := bind_eq_ok.mp h
    cases h
    exact .part hd hv

theorem replace_eq_ok (h : t.replace value resource = .ok resource') :
    Replaced t value resource resource' := by
  unfold Target.replace at h
  split at h
  case h_1 hd =>
    obtain ⟨incoming, hi, h⟩ := bind_eq_ok.mp h
    obtain ⟨v, hv, h⟩ := bind_eq_ok.mp h
    cases h
    obtain ⟨root', hedit, rfl⟩ := Json.editObject_eq_ok hv
    cases hedit
    exact .whole hd hi
  case h_2 a hd =>
    obtain ⟨_, hmatch, h⟩ := bind_eq_ok.mp h
    obtain ⟨v, hv, h⟩ := bind_eq_ok.mp h
    cases h
    exact .part hd (requireMatch_eq_ok hmatch) hv

theorem remove_eq_ok {r : Registry} {kind : Kind} {value : Option Json}
    (h : t.remove r kind value resource = .ok resource') :
    Removed r kind t value resource resource' := by
  unfold Target.remove at h
  split at h
  case h_1 hd =>
    obtain ⟨hoptional, h⟩ := guard_eq_ok.mp h
    cases h
    refine .whole hd fun urn hurn => ?_
    rw [Bool.eq_false_iff]
    exact fun hsame => hoptional (List.any_eq_true.mpr ⟨urn, hurn, hsame⟩)
  case h_2 a hd =>
    obtain ⟨_, hmatch, h⟩ := bind_eq_ok.mp h
    have hmatch := requireMatch_eq_ok hmatch
    split at h
    case isTrue hnone =>
      cases h
      exact .absent hd hmatch (Option.isNone_iff_eq_none.mp hnone)
    case isFalse hsome =>
      obtain ⟨v, hv, h⟩ := bind_eq_ok.mp h
      have hdrop : t.dropIn v = resource' := by
        unfold Target.dropIn
        split at h <;> cases h <;> simp only [*]
      rw [← hdrop]
      refine .part hd hmatch ?_ hv
      simpa [Option.isNone_iff_eq_none, Option.isSome_iff_ne_none] using hsome

end Target

/-! ### Runs -/

/-- The least part of a modification: one path, and what becomes of it. -/
inductive PatchStep where
  | assign (how : Assignment) (path : String) (value : Json)
  | remove (path : String) (value : Option Json)

namespace PatchStep

def apply (r : Registry) (kind : Kind) : PatchStep → Edit Json
  | .assign how path value => assignAt r kind how path value
  | .remove path value => fun resource => do
    let target ← resolveText r kind path resource
    target.remove r kind value resource

/-- Takes steps in turn. -/
def run (r : Registry) (kind : Kind) : List PatchStep → Edit Json
  | [], resource => .ok resource
  | s :: rest, resource => do
    let resource ← s.apply r kind resource
    run r kind rest resource

/-- The step assigns `primary` to several selected elements at once. -/
def MarksSeveral (r : Registry) (kind : Kind) (s : PatchStep) (resource : Json) : Prop :=
  match s with
  | .assign how path value => ∃ t a, resolveText r kind path resource = .ok t ∧
      t.definition = some a ∧ t.MarksSeveral a how value
  | .remove _ _ => False

/-- No step on the way assigns `primary` to several elements at once. -/
def NeverMarkSeveral (r : Registry) (kind : Kind) : List PatchStep → Json → Prop
  | [], _ => True
  | s :: rest, resource => ¬s.MarksSeveral r kind resource ∧
      ∀ next, s.apply r kind resource = .ok next → NeverMarkSeveral r kind rest next

/-- A property holds of every resource on the way, the first and the last included. -/
def Throughout (r : Registry) (kind : Kind) (P : Json → Prop) : List PatchStep → Json → Prop
  | [], resource => P resource
  | s :: rest, resource => P resource ∧
      ∀ next, s.apply r kind resource = .ok next → Throughout r kind P rest next

instance decidableThroughout (r : Registry) (kind : Kind) (P : Json → Prop) [DecidablePred P] :
    (steps : List PatchStep) → (resource : Json) → Decidable (Throughout r kind P steps resource)
  | [], resource => inferInstanceAs (Decidable (P resource))
  | s :: rest, resource =>
    match h : s.apply r kind resource with
    | .ok next =>
      have := decidableThroughout r kind P rest next
      decidable_of_iff (P resource ∧ Throughout r kind P rest next) (by simp [Throughout, h])
    | .error _ => decidable_of_iff (P resource) (by simp [Throughout, h])

/-- No step on the way is bad for the resource that it is taken in. -/
def Never (r : Registry) (kind : Kind) (Bad : PatchStep → Json → Prop) :
    List PatchStep → Json → Prop
  | [], _ => True
  | s :: rest, resource => ¬Bad s resource ∧
      ∀ next, s.apply r kind resource = .ok next → Never r kind Bad rest next

theorem run_append {r : Registry} {kind : Kind} (steps more : List PatchStep) (resource : Json) :
    run r kind (steps ++ more) resource = run r kind steps resource >>= run r kind more := by
  induction steps generalizing resource with
  | nil => rfl
  | cons s rest ih =>
    simp only [List.cons_append, run]
    cases s.apply r kind resource with
    | error e => rfl
    | ok next => exact ih next

/-- What every step of a run keeps, the run keeps. -/
theorem run_keeps_of_mem {r : Registry} {kind : Kind} {P : Json → Prop} {steps : List PatchStep}
    {resource resource' : Json}
    (hstep : ∀ s ∈ steps, ∀ v w, P v → s.apply r kind v = .ok w → P w) (hp : P resource)
    (h : run r kind steps resource = .ok resource') : P resource' := by
  induction steps generalizing resource with
  | nil =>
    cases h
    exact hp
  | cons s rest ih =>
    obtain ⟨next, hnext, h⟩ := bind_eq_ok.mp h
    obtain ⟨hs, hrest⟩ := List.forall_mem_cons.mp hstep
    exact ih hrest (hs _ _ hp hnext) h

theorem run_keeps {r : Registry} {kind : Kind} {P : Json → Prop}
    (hstep : ∀ (s : PatchStep) resource resource', P resource →
      s.apply r kind resource = .ok resource' → P resource')
    {steps : List PatchStep} {resource resource' : Json} (hp : P resource)
    (h : run r kind steps resource = .ok resource') : P resource' :=
  run_keeps_of_mem (fun s _ => hstep s) hp h

section Never

variable {r : Registry} {kind : Kind} {P : Json → Prop} {Bad : PatchStep → Json → Prop}
  {steps : List PatchStep} {resource resource' : Json}

theorem neverMarkSeveral_iff :
    NeverMarkSeveral r kind steps resource ↔ Never r kind (MarksSeveral r kind) steps resource := by
  induction steps generalizing resource with
  | nil => rfl
  | cons s rest ih => simp only [NeverMarkSeveral, Never, ih]

/-- What every step keeps that is not bad, a run without bad steps keeps. -/
theorem run_keeps_of_never
    (hkeep : ∀ (s : PatchStep) resource resource', P resource → ¬Bad s resource →
      s.apply r kind resource = .ok resource' → P resource')
    (hp : P resource) (hnever : Never r kind Bad steps resource)
    (h : run r kind steps resource = .ok resource') : P resource' := by
  induction steps generalizing resource with
  | nil =>
    cases h
    exact hp
  | cons s rest ih =>
    obtain ⟨next, hnext, h⟩ := bind_eq_ok.mp h
    exact ih (hkeep s _ _ hp hnever.1 hnext) (hnever.2 next hnext) h

/-- Where exactly the bad steps lose a property, it holds all along a run when no step of the run
is bad, and only then. -/
theorem throughout_iff_never
    (hkeep : ∀ (s : PatchStep) resource resource', P resource → ¬Bad s resource →
      s.apply r kind resource = .ok resource' → P resource')
    (hlose : ∀ (s : PatchStep) resource resource', Bad s resource →
      s.apply r kind resource = .ok resource' → ¬P resource')
    (hp : P resource) (h : run r kind steps resource = .ok resource') :
    Throughout r kind P steps resource ↔ Never r kind Bad steps resource := by
  induction steps generalizing resource with
  | nil => exact iff_of_true hp trivial
  | cons s rest ih =>
    obtain ⟨next, hnext, h⟩ := bind_eq_ok.mp h
    have only (v : Json) (hv : s.apply r kind resource = .ok v) : v = next :=
      Except.ok.inj (hv.symm.trans hnext)
    constructor
    · -- a bad step would leave a resource without the property on the way
      intro hall
      have hheld : P next := by
        have := hall.2 next hnext
        cases rest with
        | nil => exact this
        | cons _ _ => exact this.1
      refine ⟨fun hbad => hlose s _ _ hbad hnext hheld, fun v hv => ?_⟩
      obtain rfl := only v hv
      exact (ih hheld h).mp (hall.2 v hv)
    · intro hnever
      have hheld := hkeep s _ _ hp hnever.1 hnext
      refine ⟨hp, fun v hv => ?_⟩
      obtain rfl := only v hv
      exact (ih hheld h).mpr (hnever.2 v hv)

end Never

end PatchStep

/-- The steps of an assignment: one at its path, or one for each member that may be assigned. -/
def assignSteps (kind : Kind) (how : Assignment) : Option String → Json → List PatchStep
  | some path, value => [.assign how path value]
  | none, .obj members =>
    (members.filter fun m => !(sameName m.1 "schemas" || kind.isReadOnly m.1)).map fun m =>
      .assign how m.1 m.2
  | none, _ => []

def Operation.steps (kind : Kind) : Operation → List PatchStep
  | .add path value => assignSteps kind .add path value
  | .replace path value => assignSteps kind .replace path value
  | .remove path value => [.remove (path.getD "") value]

theorem assignMembers_eq_run (r : Registry) (kind : Kind) (how : Assignment)
    (members : List (String × Json)) (resource : Json) :
    assignMembers r kind how members resource =
      PatchStep.run r kind (assignSteps kind how none (.obj members)) resource := by
  induction members generalizing resource with
  | nil => rfl
  | cons m rest ih =>
    obtain ⟨key, v⟩ := m
    rw [assignMembers]
    -- members that may not be assigned are passed over, and are no steps
    by_cases hskip : (sameName key "schemas" || kind.isReadOnly key) = true
    · rw [if_pos hskip, ih, assignSteps, assignSteps, List.filter_cons_of_neg]
      simp only [hskip, Bool.not_true, Bool.false_eq_true, not_false_eq_true]
    · simp only [hskip, Bool.false_eq_true, ↓reduceIte, assignSteps, Bool.not_false,
        List.filter_cons_of_pos, List.map_cons, PatchStep.run, PatchStep.apply]
      cases assignAt r kind how key v resource with
      | error e => rfl
      | ok next => exact ih next

theorem assign_run {r : Registry} {kind : Kind} {how : Assignment} {path : Option String}
    {value resource resource' : Json} (h : assign r kind how path value resource = .ok resource') :
    PatchStep.run r kind (assignSteps kind how path value) resource = .ok resource' := by
  unfold assign at h
  split at h
  · simp [assignSteps, PatchStep.run, PatchStep.apply, h, bind, Except.bind]
  · rwa [← assignMembers_eq_run]
  · simp at h

/-- An operation that succeeds is the run of its steps. -/
theorem Operation.apply_run {r : Registry} {kind : Kind} {op : Operation}
    {resource resource' : Json} (h : op.apply r kind resource = .ok resource') :
    PatchStep.run r kind (op.steps kind) resource = .ok resource' := by
  obtain ⟨-, -, h⟩ := bind_eq_ok.mp h
  cases op with
  | add path value => exact assign_run h
  | replace path value => exact assign_run h
  | remove path value =>
    obtain ⟨t, ht, h⟩ := bind_eq_ok.mp h
    simp [Operation.steps, PatchStep.run, PatchStep.apply, ht, h, bind, Except.bind]

/-- Operations that succeed in turn are the run of all their steps. -/
theorem Operation.applyAll_run {r : Registry} {kind : Kind} {ops : List Operation}
    {resource resource' : Json} (h : Operation.applyAll r kind ops resource = .ok resource') :
    PatchStep.run r kind (ops.flatMap (Operation.steps kind)) resource = .ok resource' := by
  have step (ops : List Operation) (i : Nat) (resource : Json)
      (h : Operation.applyFrom r kind i ops resource = .ok resource') :
      PatchStep.run r kind (ops.flatMap (Operation.steps kind)) resource = .ok resource' := by
    induction ops generalizing i resource with
    | nil => simpa [Operation.applyFrom, PatchStep.run] using h
    | cons op rest ih =>
      rw [Operation.applyFrom] at h
      split at h
      · rename_i next hnext
        rw [List.flatMap_cons, PatchStep.run_append, Operation.apply_run hnext]
        exact ih _ _ h
      · simp at h
  exact step ops 0 resource h

end Roster
