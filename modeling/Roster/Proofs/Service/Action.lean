import Roster.Proofs.Service.Change

/-! Runs of changes. In every store that changes lead to from the empty one, each resource has its
identifier and states its version; a deletion in such a store never fails behind its write. -/

namespace Roster

namespace Service

variable {s : Service} {st st' : Store} {kind : Kind} {id : String} {clock : Nat → Instant}
  {groups : List Json}

/-! ### Leaving groups -/

/-- What holds before the groups left to visit, and is kept by each of them that is passed over or
rewritten, holds when all are visited, and no visit fails. -/
theorem leaveGroups_rule {P : List Json → Store → Prop} (id : String) (clock : Nat → Instant)
    (written : Nat)
    (hskip : ∀ g rest st, P (g :: rest) st →
      (g.identifier? = none ∨ withoutMember? id g = none ∨ ∃ updated,
        withoutMember? id g = some updated ∧ statedVersion? g = some (s.versionOf updated)) →
      P rest st)
    (hwrite : ∀ g rest st i updated now, P (g :: rest) st → g.identifier? = some i →
      withoutMember? id g = some updated →
      ∃ st', st.update .group i (s.restamped updated now) = .ok st' ∧ P rest st')
    (h : P groups st) :
    ∃ st', (s.leaveGroups id clock written groups).run st = (.ok (), st') ∧ P [] st' := by
  -- the count of writes only says which reading of the clock comes next
  induction groups generalizing written st with
  | nil => exact ⟨st, rfl, h⟩
  | cons g rest ih =>
    unfold leaveGroups
    split
    · rename_i i updated hi hu
      rw [Task.run_bind]
      rcases s.persist_run .group i g updated (clock written) st with ⟨hv, hr⟩ | ⟨-, hr⟩
      · rw [hr]
        exact ih _ (hskip g rest st h (.inr (.inr ⟨updated, hu, hv⟩)))
      · obtain ⟨st', hst, hp⟩ := hwrite g rest st i updated (clock written) h hi hu
        rw [hr, hst]
        exact ih _ hp
    · rename_i hno
      refine ih _ (hskip g rest st h ?_)
      cases hi : g.identifier? with
      | none => exact .inl rfl
      | some i =>
        cases hu : withoutMember? id g with
        | none => exact .inr (.inl rfl)
        | some updated => exact absurd hu (hno i updated hi)

/-- What every write of a group that the resource leaves keeps is kept, also where a write fails. -/
theorem leaveGroups_keeps {P : Store → Prop} (id : String) (clock : Nat → Instant) (written : Nat)
    (hwrite : ∀ g ∈ groups, ∀ i updated n st st', withoutMember? id g = some updated → P st →
      st.update .group i (s.restamped updated (clock n)) = .ok st' → P st')
    (h : P st) : P ((s.leaveGroups id clock written groups).run st).2 := by
  induction groups generalizing written st with
  | nil => exact h
  | cons g rest ih =>
    obtain ⟨hfirst, hrest⟩ := List.forall_mem_cons.mp hwrite
    unfold leaveGroups
    split
    · rename_i i updated _ hu
      rw [Task.run_bind]
      generalize hp : (s.persist .group i g updated (clock written)).run st = out
      have hout : P out.2 := by
        rcases persist_left (congrArg Prod.snd hp) with heq | hst
        · rwa [heq]
        · exact hfirst i updated written _ _ hu h hst
      obtain ⟨result, st₁⟩ := out
      cases result with
      | ok _ => exact ih _ hrest hout
      | error e => exact hout
    · exact ih _ hrest h

/-- A property of the stored resources is kept when a resource leaves groups, if the rewritten
groups have it. -/
theorem leaveGroups_all {P : Kind → String → Json → Prop} {groups : List Json}
    (id : String) (clock : Nat → Instant) (written : Nat)
    (hwrite : ∀ g ∈ groups, ∀ i left n, withoutMember? id g = some left →
      P .group i (s.restamped left (clock n)))
    (h : st.All P) : ((s.leaveGroups id clock written groups).run st).2.All P :=
  leaveGroups_keeps id clock written
    (fun g hg i left n _ _ hleft hall hu => hall.update hu (hwrite g hg i left n hleft)) h

/-- A deletion is refused, or the resource leaves all groups that are then stored. -/
theorem delete_run (s : Service) (kind : Kind) (id : String) (clock : Nat → Instant) (st : Store) :
    (∃ e, st.delete kind id = .error e ∧
        ∃ e', (s.delete kind id clock).task.run st = (.error e', st)) ∨
      ∃ st₁, st.delete kind id = .ok st₁ ∧ (s.delete kind id clock).task.run st =
        (s.leaveGroups id clock 0 (st₁.list .group none)).run st₁ := by
  have hrun : (s.delete kind id clock).task.run st =
      Task.run (Task.ask (.delete kind id) >>= _) st := rfl
  rw [Task.run_bind, Task.run_ask, Store.answer] at hrun
  cases hd : st.delete kind id with
  | ok st₁ =>
    rw [hd] at hrun
    exact .inr ⟨st₁, rfl, hrun⟩
  | error e =>
    rw [hd] at hrun
    refine .inl ⟨e, rfl, ?_⟩
    cases e with
    | notFound => exact ⟨_, hrun⟩
    | conflict => exact ⟨_, hrun⟩
    | noIdentifier => exact ⟨_, hrun⟩

/-! ### Stamps -/

/-- Every stored resource is stamped under its identifier. -/
abbrev AllStamped (s : Service) (st : Store) : Prop :=
  st.All fun _ id v => s.Stamped id v

/-- A resource in the place of a stamped one is stamped when it has that one's identifier and
metadata. -/
theorem Stamped.restamped {existing v : Json} (hold : s.Stamped id existing)
    (hkept : ∀ key, key = "id" ∨ key = "meta" → v.get? key = existing.get? key) (now : Instant) :
    s.Stamped id (s.restamped v now) := by
  obtain ⟨held, hheld⟩ := hold.metadata
  exact restamped_stamped ((hkept "id" (.inl rfl)).trans hold.identifier)
    ((hkept "meta" (.inr rfl)).trans hheld) now

/-- The groups left to visit are stamped, and stored in some form. -/
structure Departing (s : Service) (groups : List Json) (st : Store) : Prop where
  stamped : s.AllStamped st
  waiting : ∀ g ∈ groups, ∃ i, s.Stamped i g ∧ (st.get? .group i).isSome = true

theorem Departing.skip {g : Json} (h : s.Departing (g :: groups) st) : s.Departing groups st :=
  ⟨h.stamped, fun g' hg => h.waiting g' (List.mem_cons_of_mem _ hg)⟩

theorem Departing.write {g updated : Json} {i : String} (h : s.Departing (g :: groups) st)
    (hi : g.identifier? = some i) (hu : withoutMember? id g = some updated) (now : Instant) :
    ∃ st', st.update .group i (s.restamped updated now) = .ok st' ∧ s.Departing groups st' := by
  obtain ⟨i', hg, hstored⟩ := h.waiting g List.mem_cons_self
  obtain rfl : i = i' := Option.some.inj (hi.symm.trans hg.identifier?)
  have hstamped : s.Stamped i (s.restamped updated now) := by
    refine hg.restamped (fun key hk => withoutMember?_get?_of_ne ?_ hu) now
    rcases hk with rfl | rfl <;> decide
  obtain ⟨st', hst⟩ := st.exists_update hstored (s.restamped updated now)
  -- the groups still to visit are stored, be it as they are or rewritten
  refine ⟨st', hst, h.stamped.update hst hstamped, fun g' hg' => ?_⟩
  obtain ⟨j, hj, hjs⟩ := h.waiting g' (List.mem_cons_of_mem _ hg')
  refine ⟨j, hj, ?_⟩
  rw [Store.get?_update hst]
  split_ifs
  · rfl
  · exact hjs

/-- After a deletion all groups are to be visited. -/
theorem departing_of_delete {st₁ : Store} (h : s.AllStamped st) (hd : st.delete kind id = .ok st₁) :
    s.Departing (st₁.list .group none) st₁ := by
  have h₁ := h.delete hd
  refine ⟨h₁, fun g hg => ?_⟩
  obtain ⟨i, hi⟩ := (Store.mem_list h₁.sorted).mp hg
  exact ⟨i, h₁.each _ _ _ hi, by simp [hi]⟩

theorem leaveGroups_stamped (id : String) (clock : Nat → Instant) (written : Nat)
    (h : s.Departing groups st) :
    ∃ st', (s.leaveGroups id clock written groups).run st = (.ok (), st') ∧ s.AllStamped st' := by
  obtain ⟨st', hr, hst⟩ := leaveGroups_rule (P := s.Departing) id clock written
    (fun g rest st h _ => h.skip) (fun g rest st i updated now h hi hu => h.write hi hu now) h
  exact ⟨st', hr, hst.stamped⟩

/-- A deletion that fails has not changed a store of stamped resources. -/
theorem delete_refused {e : ServiceError} (h : s.AllStamped st)
    (hr : (s.delete kind id clock).task.run st = (.error e, st')) : st' = st := by
  rcases s.delete_run kind id clock st with ⟨-, -, e', hrun⟩ | ⟨st₁, hd, hrun⟩
  · rw [hrun] at hr
    exact (congrArg Prod.snd hr).symm
  · obtain ⟨st₂, hleave, -⟩ := leaveGroups_stamped id clock 0 (departing_of_delete h hd)
    rw [hrun, hleave] at hr
    cases hr

/-! ### Runs -/

/-- A change of the store, with what is given to it. -/
inductive Action where
  | create (kind : Kind) (body : Json) (baseUrl id : String) (now : Instant)
  | replace (kind : Kind) (id : String) (body : Json) (baseUrl : String) (now : Instant)
  | patch (kind : Kind) (id : String) (request : PatchRequest) (baseUrl : String) (now : Instant)
  | delete (kind : Kind) (id : String) (clock : Nat → Instant)

/-- The store that a change leaves, whether or not it fails. -/
def perform (s : Service) (st : Store) : Action → Store
  | .create kind body baseUrl id now => ((s.create kind body baseUrl id now).task.run st).2
  | .replace kind id body baseUrl now => ((s.replace kind id body baseUrl now).task.run st).2
  | .patch kind id request baseUrl now => ((s.patch kind id request baseUrl now).task.run st).2
  | .delete kind id clock => ((s.delete kind id clock).task.run st).2

/-- What a change leaves of a store: the store as it was, or what one write makes of it; behind that
of a deletion, the groups are left. -/
inductive Leaves (s : Service) (st : Store) : Action → Store → Prop where
  | refused {a : Action} : Leaves s st a st
  | created {kind : Kind} {body built resolved : Json} {baseUrl id : String} {now : Instant}
      {st' : Store} (hb : s.registry.build kind body = .ok built)
      (hunique : (checkUnique kind built none).run st = (.ok (), st))
      (hres : (resolveMembers kind built baseUrl).run st = (.ok resolved, st))
      (hi : st.insert kind (s.stamp kind resolved baseUrl id now) = .ok st') :
      Leaves s st (.create kind body baseUrl id now) st'
  | replaced {kind : Kind} {id : String} {body built existing resolved : Json} {baseUrl : String}
      {now : Instant} {st' : Store} (hb : s.registry.build kind body = .ok built)
      (he : st.get? kind id = some existing)
      (hunique : (checkUnique kind built (some id)).run st = (.ok (), st))
      (hres : (resolveMembers kind built baseUrl).run st = (.ok resolved, st))
      (hu : st.update kind id (s.restamped (keepAssigned existing resolved) now) = .ok st') :
      Leaves s st (.replace kind id body baseUrl now) st'
  | patched {kind : Kind} {id : String} {request : PatchRequest} {existing patched resolved : Json}
      {baseUrl : String} {now : Instant} {st' : Store} (he : st.get? kind id = some existing)
      (ha : Operation.applyAll s.registry kind request.operations existing = .ok patched)
      (hunique : (checkUnique kind patched (some id)).run st = (.ok (), st))
      (hres : (resolveMembers kind patched baseUrl).run st = (.ok resolved, st))
      (hu : st.update kind id (s.restamped resolved now) = .ok st') :
      Leaves s st (.patch kind id request baseUrl now) st'
  | deleted {kind : Kind} {id : String} {clock : Nat → Instant} {start : Store}
      (hd : st.delete kind id = .ok start) :
      Leaves s st (.delete kind id clock)
        ((s.leaveGroups id clock 0 (start.list .group none)).run start).2

theorem perform_leaves (s : Service) (st : Store) (a : Action) :
    s.Leaves st a (s.perform st a) := by
  generalize hleft : s.perform st a = st'
  cases a with
  | create kind body baseUrl id now =>
    rcases create_left hleft with rfl | ⟨built, resolved, hb, hunique, hres, hi⟩
    · exact .refused
    · exact .created hb hunique hres hi
  | replace kind id body baseUrl now =>
    rcases replace_left hleft with rfl | ⟨built, existing, resolved, hb, he, hunique, hres, hu⟩
    · exact .refused
    · exact .replaced hb he hunique hres hu
  | patch kind id request baseUrl now =>
    rcases patch_left hleft with rfl | ⟨existing, patched, resolved, he, ha, hunique, hres, hu⟩
    · exact .refused
    · exact .patched he ha hunique hres hu
  | delete kind id clock =>
    change ((s.delete kind id clock).task.run st).2 = st' at hleft
    rcases s.delete_run kind id clock st with ⟨-, -, e, hrun⟩ | ⟨start, hd, hrun⟩
    · rw [hrun] at hleft
      subst hleft
      exact .refused
    · rw [hrun] at hleft
      subst hleft
      exact .deleted hd

/-- The store that changes in turn leave. -/
def performAll (s : Service) (st : Store) (actions : List Action) : Store :=
  actions.foldl s.perform st

/-- What every change keeps holds after changes in turn. -/
theorem performAll_rule {P : Store → Prop} (hstep : ∀ st a, P st → P (s.perform st a)) (h : P st)
    (actions : List Action) : P (s.performAll st actions) := by
  induction actions generalizing st with
  | nil => exact h
  | cons a rest ih => exact ih (hstep st a h)

theorem get?_resolved {v w : Json} {baseUrl key : String} (hk : key ≠ "members")
    (h : (resolveMembers kind v baseUrl).run st = (.ok w, st')) : w.get? key = v.get? key := by
  rcases resolveMembers_eq h with rfl | ⟨items, rfl⟩
  · rfl
  · exact Json.get?_put_of_ne hk

theorem isObject_resolved {v w : Json} {baseUrl : String} (ho : v.isObject = true)
    (h : (resolveMembers kind v baseUrl).run st = (.ok w, st')) : w.isObject = true := by
  rcases resolveMembers_eq h with rfl | ⟨items, rfl⟩
  · exact ho
  · rwa [Json.isObject_put]

/-- A property of resources that does not get lost by what the server assigns to them. -/
structure Unassigned (P : Json → Prop) : Prop where
  identifier {v : Json} (held : Json) : P v → P (v.put "id" held)
  metadata {v : Json} (held : Json) : P v → P (v.put "meta" held)

section Unassigned

variable {P : Json → Prop} {v : Json}

theorem Unassigned.putMeta (hP : Unassigned P) (h : P v) (members : List (String × Json)) :
    P (putMeta v members) := by
  unfold Service.putMeta
  split
  · exact hP.metadata _ h
  · exact h

theorem Unassigned.stamp (hP : Unassigned P) (s : Service) (kind : Kind) (h : P v)
    (baseUrl id : String) (now : Instant) : P (s.stamp kind v baseUrl id now) :=
  hP.putMeta (hP.metadata _ (hP.identifier _ h)) _

theorem Unassigned.restamped (hP : Unassigned P) (s : Service) (h : P v) (now : Instant) :
    P (s.restamped v now) :=
  hP.putMeta h _

theorem Unassigned.keepAssigned (hP : Unassigned P) (existing : Json) (h : P v) :
    P (keepAssigned existing v) := by
  refine List.foldlRecOn _ _ h fun w hw name hname => ?_
  split
  · rcases List.mem_pair.mp hname with rfl | rfl
    · exact hP.identifier _ hw
    · exact hP.metadata _ hw
  · exact hw

end Unassigned

theorem get?_keepAssigned {existing v : Json} {key : String} (hk : key = "id" ∨ key = "meta")
    {x : Json} (ho : v.isObject = true) (hx : existing.get? key = some x) :
    (keepAssigned existing v).get? key = some x := by
  unfold keepAssigned
  simp only [List.foldl_cons, List.foldl_nil]
  rcases hk with rfl | rfl
  · simp only [hx]
    split
    · rw [Json.get?_put_of_ne (by decide), Json.get?_put_self ho]
    · rw [Json.get?_put_self ho]
  · simp only [hx]
    refine Json.get?_put_self ?_
    split
    · rwa [Json.isObject_put]
    · exact ho

/-- A resource in the place of another takes over what the server has assigned to that. -/
theorem replaced_get? {existing built resolved body : Json} {baseUrl key : String}
    (hk : key = "id" ∨ key = "meta") (hold : s.Stamped id existing)
    (hb : s.registry.build kind body = .ok built)
    (hres : (resolveMembers kind built baseUrl).run st = (.ok resolved, st')) :
    (keepAssigned existing resolved).get? key = existing.get? key := by
  obtain ⟨held, hheld⟩ := hold.metadata
  have ho := isObject_resolved (Registry.build_isObject hb) hres
  rcases hk with rfl | rfl
  · rw [get?_keepAssigned (.inl rfl) ho hold.identifier, hold.identifier]
  · rw [get?_keepAssigned (.inr rfl) ho hheld, hheld]

/-- The server's own members are as they were in a modified resource. -/
theorem patched_get? {ops : List Operation} {existing patched resolved : Json}
    {baseUrl key : String} (hk : key = "id" ∨ key = "meta") (hold : s.Stamped id existing)
    (ha : Operation.applyAll s.registry kind ops existing = .ok patched)
    (hres : (resolveMembers kind patched baseUrl).run st = (.ok resolved, st')) :
    resolved.get? key = existing.get? key := by
  rw [get?_resolved (by rcases hk with rfl | rfl <;> decide) hres]
  refine Operation.applyAll_readOnly ?_ ?_ hold.isObject ha
  · rcases hk with rfl | rfl <;> cases kind <;> decide
  · rcases hk with rfl | rfl <;> decide

/-- Every change leaves each stored resource stamped. -/
theorem perform_stamped (h : s.AllStamped st) (a : Action) : s.AllStamped (s.perform st a) := by
  have hleft := s.perform_leaves st a
  generalize s.perform st a = st' at hleft ⊢
  cases hleft with
  | refused => exact h
  | created hb hunique hres hi =>
    refine h.insert hi fun id' hid => ?_
    have ho := isObject_resolved (Registry.build_isObject hb) hres
    obtain rfl := Option.some.inj (hid.symm.trans (s.stamp_stamped _ ho _ _ _).identifier?)
    exact s.stamp_stamped _ ho _ _ _
  | replaced hb he hunique hres hu =>
    have hold := h.each _ _ _ he
    exact h.update hu (hold.restamped (fun _ hk => replaced_get? hk hold hb hres) _)
  | patched he ha hunique hres hu =>
    have hold := h.each _ _ _ he
    exact h.update hu (hold.restamped (fun _ hk => patched_get? hk hold ha hres) _)
  | deleted hd =>
    -- no group refuses to be left
    obtain ⟨last, hleave, hst⟩ := leaveGroups_stamped _ _ 0 (departing_of_delete h hd)
    rw [hleave]
    exact hst

theorem performAll_stamped (h : s.AllStamped st) (actions : List Action) :
    s.AllStamped (s.performAll st actions) :=
  performAll_rule (P := s.AllStamped) (fun _ a h => perform_stamped h a) h actions

/-- What resources of a kind have is kept by a deletion, if the groups that are left keep it. -/
theorem departed_all {P : Kind → Json → Prop} {clock : Nat → Instant} {start : Store}
    (hleft : ∀ g left n, P .group g → withoutMember? id g = some left →
      P .group (s.restamped left (clock n)))
    (h : st.All fun kind _ v => P kind v) (hd : st.delete kind id = .ok start) :
    ((s.leaveGroups id clock 0 (start.list .group none)).run start).2.All
      fun kind _ v => P kind v := by
  have hstart := h.delete hd
  refine leaveGroups_all id clock 0 (fun g hg _ left n hl => ?_) hstart
  obtain ⟨i, hi⟩ := (Store.mem_list hstart.sorted).mp hg
  exact hleft g left n (hstart.each _ _ _ hi) hl

/-- A property of the resources of a kind that a change keeps: clients cannot write a resource
without it, the server does not take it from a resource by what it assigns, and a group does not
lose it with a member. -/
structure Kept (s : Service) (st : Store) (P : Kind → Json → Prop) : Prop where
  unassigned (kind : Kind) : Unassigned (P kind)
  built {kind : Kind} {body built resolved : Json} {baseUrl : String} :
    s.registry.build kind body = .ok built →
    (resolveMembers kind built baseUrl).run st = (.ok resolved, st) → P kind resolved
  patched {kind : Kind} {id : String} {ops : List Operation} {existing patched resolved : Json}
    {baseUrl : String} : st.get? kind id = some existing → P kind existing →
    Operation.applyAll s.registry kind ops existing = .ok patched →
    (resolveMembers kind patched baseUrl).run st = (.ok resolved, st) → P kind resolved
  left {id : String} {g left : Json} : P .group g → withoutMember? id g = some left →
    P .group left

/-- What is kept of each resource holds of all stored resources after a change. -/
theorem perform_all {P : Kind → Json → Prop} (hP : s.Kept st P)
    (h : st.All fun kind _ v => P kind v) (a : Action) :
    (s.perform st a).All fun kind _ v => P kind v := by
  have hleft := s.perform_leaves st a
  generalize s.perform st a = st' at hleft ⊢
  cases hleft with
  | refused => exact h
  | created hb hunique hres hi =>
    exact h.insert hi fun _ _ => (hP.unassigned _).stamp s _ (hP.built hb hres) _ _ _
  | replaced hb he hunique hres hu =>
    have hbuilt := hP.built hb hres
    exact h.update hu
      ((hP.unassigned _).restamped s ((hP.unassigned _).keepAssigned _ hbuilt) _)
  | patched he ha hunique hres hu =>
    have hpatched := hP.patched he (h.each _ _ _ he) ha hres
    exact h.update hu ((hP.unassigned _).restamped s hpatched _)
  | deleted hd =>
    exact departed_all (fun _ _ _ hg hl => (hP.unassigned _).restamped s (hP.left hg hl) _) h hd

end Service

end Roster
