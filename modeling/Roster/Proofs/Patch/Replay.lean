import Roster.Proofs.Patch.Done

/-! Replacements that are made twice. Where the paths of a replacement lead to places apart, each
step of it meets the second time what it has left the first time. -/

namespace Roster

open Members Json

namespace PatchStep

def path : PatchStep → String
  | .assign _ path _ => path
  | .remove path _ => path

/-- What two steps address lies apart. -/
def Apart (r : Registry) (kind : Kind) (resource : Json) (s s' : PatchStep) : Prop :=
  ∀ t ∈ (resolveText r kind s.path resource).toOption,
    ∀ u ∈ (resolveText r kind s'.path resource).toOption, apart t.address u.address = true

instance (r : Registry) (kind : Kind) (resource : Json) (s s' : PatchStep) :
    Decidable (Apart r kind resource s s') :=
  inferInstanceAs (Decidable (∀ t ∈ (resolveText r kind s.path resource).toOption,
    ∀ u ∈ (resolveText r kind s'.path resource).toOption, apart t.address u.address = true))

/-- The step marks no elements as primary, or it selects the primary ones. -/
def Settled (r : Registry) (kind : Kind) (s : PatchStep) (resource : Json) : Prop :=
  match s with
  | .assign .replace path value => ∀ t ∈ (resolveText r kind path resource).toOption,
      ∀ a ∈ t.definition, t.Settled a value (resource.holderAt t.container)
  | _ => True

instance (r : Registry) (kind : Kind) (resource : Json) :
    (s : PatchStep) → Decidable (s.Settled r kind resource)
  | .assign .replace path value =>
    inferInstanceAs (Decidable (∀ t ∈ (resolveText r kind path resource).toOption,
      ∀ a ∈ t.definition, t.Settled a value (resource.holderAt t.container)))
  | .assign .add _ _ | .remove _ _ => inferInstanceAs (Decidable True)

/-- The step replaces what its path addresses. -/
def Replaces (r : Registry) (kind : Kind) (s : PatchStep) (t : Target) (c : Option Condition)
    (value : Json) : Prop :=
  ∃ path, s = .assign .replace path value ∧ Aims r kind path t c

section

variable {r : Registry} {kind : Kind} {s s' : PatchStep} {t u : Target} {c d : Option Condition}
  {value other resource v w start : Json} {spelled : Prop} {steps : List PatchStep}

theorem Replaces.resolved (h : s.Replaces r kind t c value) (resource : Json) :
    (resolveText r kind s.path resource).toOption = some (t.inside c resource) := by
  obtain ⟨path, rfl, haims⟩ := h
  rw [PatchStep.path, haims.resolved resource]
  rfl

theorem Replaces.apart (h : s.Replaces r kind t c value) (h' : s'.Replaces r kind u d other)
    (hapart : s.Apart r kind resource s') : Roster.apart t.address u.address = true := by
  unfold Apart at hapart
  rw [h.resolved resource, h'.resolved resource] at hapart
  exact hapart (t.inside c resource) rfl (u.inside d resource) rfl

theorem Replaces.settled_iff (h : s.Replaces r kind t c value) :
    s.Settled r kind resource ↔ ∀ a ∈ t.definition,
      (t.inside c resource).Settled a value (resource.holderAt t.container) := by
  have hresolved := h.resolved resource
  obtain ⟨path, rfl, -⟩ := h
  rw [PatchStep.path] at hresolved
  simp only [Settled, hresolved, Option.mem_some_iff, forall_eq']
  rfl

theorem Apart.symm (h : s.Apart r kind resource s') : s'.Apart r kind resource s :=
  fun u hu t ht => by rw [apart_comm, h t ht u hu]

/-- A step that has been taken has a target. -/
theorem exists_replaces (hs : ∃ path value, s = .assign .replace path value)
    (h : s.apply r kind resource = .ok v) : ∃ t c value, s.Replaces r kind t c value := by
  obtain ⟨path, value, rfl⟩ := hs
  obtain ⟨t, ht, -⟩ := bind_eq_ok.mp h
  obtain ⟨c, haims⟩ := resolveText_aims ht
  exact ⟨t, c, value, path, rfl, haims⟩

theorem Replaces.course (h : s.Replaces r kind t c value) (hs : s.apply r kind resource = .ok v) :
    Course t c value resource v := by
  obtain ⟨path, rfl, haims⟩ := h
  exact haims.course hs

/-- Null is put in the place of a value by removing it. -/
theorem Replaces.removal (h : s.Replaces r kind t c value) (hnull : value.isNull = true) :
    s.removal?.isSome = true := by
  obtain ⟨path, rfl, -⟩ := h
  obtain rfl := eq_null hnull
  rfl

/-- What a step has left at its place stays there in a run of steps at other places. -/
theorem run_keeps_done (hu : s'.Replaces .standard kind u d other)
    (hreplace : ∀ s ∈ steps, ∃ path value, s = .assign .replace path value)
    (hspelled : ∀ s ∈ steps, s.removal?.isSome = true → spelled)
    (hapart : ∀ s ∈ steps, s.Apart .standard kind start s') (ho : Orderly spelled v)
    (hdone : Done u d other v) (h : run .standard kind steps v = .ok w) :
    Orderly spelled w ∧ Done u d other w ∧
      w.slot u.container u.name = v.slot u.container u.name := by
  have ⟨path', _, hu'⟩ := hu
  refine run_keeps_of_mem (P := fun x => Orderly spelled x ∧ Done u d other x ∧
    x.slot u.container u.name = v.slot u.container u.name) ?_ ⟨ho, hdone, rfl⟩ h
  rintro s hs x y ⟨hox, hdonex, hslot⟩ hstep
  obtain ⟨t, c, value, ht⟩ := exists_replaces (hreplace s hs) hstep
  have ⟨path, _, ht'⟩ := ht
  have hcourse := ht.course hstep
  have haddress := ht.apart hu (hapart s hs)
  have hnull (hvalue : value.isNull = true) : spelled := hspelled s hs (ht.removal hvalue)
  refine ⟨hox.step hstep, hdonex.keep hcourse ht' hu' haddress hox hnull, ?_⟩
  rw [← hslot]
  exact hcourse.slot ht' (fun hvalue urn _ => hox.1.2 (hnull hvalue) urn)
    (ht'.lies.spares hu'.lies haddress)

/-- After a run of steps at places apart, each has left at its place what it leaves there. -/
theorem run_done (hreplace : ∀ s ∈ steps, ∃ path value, s = .assign .replace path value)
    (hspelled : ∀ s ∈ steps, s.removal?.isSome = true → spelled)
    (hapart : steps.Pairwise (Apart .standard kind start)) (ho : Orderly spelled v)
    (h : run .standard kind steps v = .ok w) : ∀ s ∈ steps, ∃ t c value,
      s.Replaces .standard kind t c value ∧ Done t c value w := by
  induction steps generalizing v with
  | nil => simp
  | cons s rest ih =>
    obtain ⟨next, hnext, h⟩ := bind_eq_ok.mp h
    obtain ⟨hs, hrest⟩ := List.forall_mem_cons.mp hreplace
    obtain ⟨hspell, hspells⟩ := List.forall_mem_cons.mp hspelled
    obtain ⟨hfirst, hothers⟩ := List.pairwise_cons.mp hapart
    obtain ⟨t, c, value, ht⟩ := exists_replaces hs hnext
    have ⟨path, _, ht'⟩ := ht
    have hdone := (ht.course hnext).done ht' ho fun hvalue => hspell (ht.removal hvalue)
    have hkeep := run_keeps_done ht hrest hspells (fun s' hs' => (hfirst s' hs').symm)
      (ho.step hnext) hdone h
    exact List.forall_mem_cons.mpr
      ⟨⟨t, c, value, ht, hkeep.2.1⟩, ih hrest hspells hothers (ho.step hnext) h⟩

/-- A run of replacements at places apart that is made twice changes nothing the second time exactly
when each of its steps is settled. -/
theorem run_twice {once twice : Json}
    (hreplace : ∀ s ∈ steps, ∃ path value, s = .assign .replace path value)
    (hspelled : ∀ s ∈ steps, s.removal?.isSome = true → spelled)
    (hapart : steps.Pairwise (Apart .standard kind start)) (ho : Orderly spelled v)
    (honce : run .standard kind steps v = .ok once)
    (htwice : run .standard kind steps once = .ok twice) :
    twice = once ↔ ∀ s ∈ steps, s.Settled .standard kind once := by
  have hleft := run_done hreplace hspelled hapart ho honce
  have ho : Orderly spelled once :=
    run_keeps (P := Orderly spelled) (fun _ _ _ hx hs => hx.step hs) ho honce
  constructor
  · rintro rfl s hs
    obtain ⟨t, c, value, ht, hdone⟩ := hleft s hs
    have ⟨path, _, ht'⟩ := ht
    obtain ⟨front, back, rfl⟩ := List.append_of_mem hs
    obtain ⟨hfront, hback, hcross⟩ := List.pairwise_append.mp hapart
    rw [run_append] at htwice
    obtain ⟨x, hx, htwice⟩ := bind_eq_ok.mp htwice
    obtain ⟨y, hy, htwice⟩ := bind_eq_ok.mp htwice
    simp only [List.mem_append, List.mem_cons] at hreplace hspelled
    -- what the step has left reaches it, and reaches the end of the run
    obtain ⟨hox, hdonex, hslotx⟩ := run_keeps_done ht (fun s' hs' => hreplace s' (.inl hs'))
      (fun s' hs' => hspelled s' (.inl hs')) (fun s' hs' => hcross s' hs' s List.mem_cons_self) ho
      hdone hx
    have hcourse := ht.course hy
    have hdoney := hcourse.done ht' hox fun hvalue =>
      hspelled s (.inr (.inl rfl)) (ht.removal hvalue)
    obtain ⟨-, -, hsloty⟩ := run_keeps_done ht (fun s' hs' => hreplace s' (.inr (.inr hs')))
      (fun s' hs' => hspelled s' (.inr (.inr hs')))
      (fun s' hs' => ((List.pairwise_cons.mp hback).1 s' hs').symm) (hox.step hy) hdoney htwice
    rw [ht.settled_iff]
    intro a ha
    rw [← ht'.settled_congr ha hslotx]
    exact (hdonex.again hcourse ht' hox).2 (hsloty.symm.trans hslotx.symm) a ha
  · intro hsettled
    refine run_keeps_of_mem (P := fun x => x = once) (fun s hs x y hx hstep => ?_) rfl htwice
    subst hx
    obtain ⟨t, c, value, ht, hdone⟩ := hleft s hs
    have ⟨path, _, ht'⟩ := ht
    exact (hdone.again (ht.course hstep) ht' ho).1 (ht.settled_iff.mp (hsettled s hs))

end

end PatchStep

/-- Replacements of several attributes are runs of steps that replace. -/
theorem assignSteps_replace {kind : Kind} {path : Option String} {value : Json} {s : PatchStep}
    (hs : s ∈ assignSteps kind .replace path value) :
    ∃ path value, s = .assign .replace path value := by
  unfold assignSteps at hs
  split at hs
  · exact ⟨_, _, List.mem_singleton.mp hs⟩
  · obtain ⟨m, -, rfl⟩ := List.mem_map.mp hs
    exact ⟨_, _, rfl⟩
  · simp at hs

/-- A replacement that succeeds twice in succession, and whose members address places apart, changes
nothing the second time exactly when each of its steps is then settled: it marks no elements as
primary, or its filter selects the primary ones. Where null removes a value, it is held in one
spelling. -/
theorem Operation.replace_twice {kind : Kind} {path : Option String}
    {value resource once twice : Json} (hordered : resource.AllObjects Sorted)
    (hspelled : (∃ s ∈ assignSteps kind .replace path value, s.removal?.isSome = true) →
      resource.AllObjects fun ms => ∀ name, SpelledOnce ms name)
    (hapart : (assignSteps kind .replace path value).Pairwise
      (PatchStep.Apart .standard kind resource))
    (honce : (Operation.replace path value).apply .standard kind resource = .ok once)
    (htwice : (Operation.replace path value).apply .standard kind once = .ok twice) :
    twice = once ↔
      ∀ s ∈ assignSteps kind .replace path value, s.Settled .standard kind once := by
  have ho : Orderly (∃ s ∈ assignSteps kind .replace path value, s.removal?.isSome = true)
      resource := by
    have hall : resource.AllObjects fun ms => Sorted ms ∧
        ((∃ s ∈ assignSteps kind .replace path value, s.removal?.isSome = true) →
          ∀ name, SpelledOnce ms name) :=
      fun o hmem => ⟨hordered o hmem, fun hnull => hspelled hnull o hmem⟩
    have hroot := (orderly_rule _).holds_root hall
    exact ⟨hroot.1, fun m hm _ => hroot.2 m hm rfl⟩
  exact PatchStep.run_twice (fun s hs => assignSteps_replace hs) (fun s hs h => ⟨s, hs, h⟩) hapart
    ho (Operation.apply_run honce) (Operation.apply_run htwice)

/-- A user with two addresses, the second of which is the primary one. -/
def bjMail : Json :=
  .obj [("emails", .arr [.obj [("primary", .bool false), ("value", .str "a")],
    .obj [("primary", .bool true), ("value", .str "b")]]), ("userName", .str "bj")]

/-- A name for the user, and a mark for the first address. -/
def bjMark : Json :=
  .obj [("displayName", .str "B. J."), ("emails[value eq \"a\"].primary", .bool true)]

/-- The user with the name and the mark. -/
def bjMarked : Json :=
  .obj [("displayName", .str "B. J."),
    ("emails", .arr [.obj [("primary", .bool true), ("value", .str "a")],
      .obj [("primary", .bool false), ("value", .str "b")]]), ("userName", .str "bj")]

theorem replace_twice_marked :
    (Operation.replace none bjMark).apply .standard .user bjMail = .ok bjMarked ∧
      (Operation.replace none bjMark).apply .standard .user bjMarked = .ok bjMarked := by
  have hordered : bjMail.AllObjects Sorted :=
    show ∀ o ∈ bjMail.objects, List.Pairwise (fun a b => a.1 < b.1) o by decide +kernel
  have hpresent : ¬∃ s ∈ assignSteps .user .replace none bjMark, s.removal?.isSome = true := by
    decide +kernel
  have hapart : (assignSteps .user .replace none bjMark).Pairwise
      (PatchStep.Apart .standard .user bjMail) := by decide +kernel
  have hsettled : ∀ s ∈ assignSteps .user .replace none bjMark,
      s.Settled .standard .user bjMarked := by decide +kernel
  have honce : (Operation.replace none bjMark).apply .standard .user bjMail = .ok bjMarked := by
    decide +kernel
  obtain ⟨twice, htwice⟩ := exists_ok
    (show ((Operation.replace none bjMark).apply .standard .user bjMarked).toBool = true by
      decide +kernel)
  have hsame : twice = bjMarked := (Operation.replace_twice hordered
    (fun hnull => absurd hnull hpresent) hapart honce htwice).mpr hsettled
  exact ⟨honce, by rw [htwice, hsame]⟩

/-- The filter selects the address that the first time has demoted, so that the mark moves back. -/
theorem replace_moves_mark : ∃ once twice,
    (Operation.replace (some "emails[primary eq false].primary") (.bool true)).apply .standard .user
      bjMail = .ok once ∧
    (Operation.replace (some "emails[primary eq false].primary") (.bool true)).apply .standard .user
      once = .ok twice ∧ twice ≠ once := by
  refine ⟨.obj [("emails", .arr [.obj [("primary", .bool true), ("value", .str "a")],
      .obj [("primary", .bool false), ("value", .str "b")]]), ("userName", .str "bj")],
    bjMail, by decide +kernel, by decide +kernel, by decide +kernel⟩

end Roster
