import Roster.Proofs.Service.Action

/-! Referential integrity of groups. In every store that changes lead to from the empty one, the
members of each group are stored resources, no two of them the same. -/

namespace Roster

theorem Referential.mono {holds other : String → Prop} {g : Json} (h : Referential holds g)
    (ho : ∀ id, holds id → other id) : Referential other g :=
  ⟨h.listed, fun items hi => (h.resolved items hi).mono fun _ _ id _ => ho id⟩

/-- A member of another name does not matter. -/
theorem Referential.put {holds : String → Prop} {g x : Json} {key : String}
    (h : Referential holds g) (hk : sameName "members" key = false) :
    Referential holds (g.put key x) := by
  have hne := Members.ne_of_not_same hk
  cases g with
  | obj root =>
    refine ⟨h.listed.put rfl (fun hs => ?_) fun hn => absurd hn.symm hne, fun items hi => ?_⟩
    · rw [hk] at hs
      cases hs
    · rw [Json.get?_put_of_ne hne] at hi
      exact h.resolved items hi
  | _ => exact h

theorem FreeOf.put {id key : String} {g x : Json} (h : FreeOf id g) (hk : key ≠ "members") :
    FreeOf id (g.put key x) := by
  intro items hi
  rw [Json.get?_put_of_ne hk.symm] at hi
  exact h items hi

namespace Service

variable {s : Service} {st st' : Store} {kind : Kind} {id : String} {holds : String → Prop}

theorem referential_unassigned (holds : String → Prop) : Unassigned (Referential holds) :=
  ⟨fun _ h => h.put (by decide), fun _ h => h.put (by decide)⟩

theorem freeOf_unassigned (id : String) : Unassigned (FreeOf id) :=
  ⟨fun _ h => h.put (by decide), fun _ h => h.put (by decide)⟩

/-! ### Linked stores -/

/-- Stored resources are stamped, and the members of stored groups are stored. -/
structure Linked (s : Service) (st : Store) : Prop where
  stamped : s.AllStamped st
  referential : ∀ id g, st.get? .group id = some g → Referential st.Holds g

theorem linked_empty (s : Service) : s.Linked .empty :=
  ⟨Store.all_empty _, fun id g h => by simp [Store.get?, Store.entries, Store.empty,
    Members.get?] at h⟩

/-- A store stays linked when a resource is put that, if it is a group, has stored members. -/
theorem Linked.put (h : s.Linked st) {v : Json} (hst : s.AllStamped st')
    (hget : ∀ k i, st'.get? k i = if k = kind ∧ i = id then some v else st.get? k i)
    (hv : kind = .group → Referential st.Holds v) : s.Linked st' := by
  have hholds : ∀ x, st.Holds x → st'.Holds x := by
    rintro x ⟨k, hk⟩
    refine ⟨k, ?_⟩
    rw [hget]
    split_ifs
    · rfl
    · exact hk
  refine ⟨hst, fun i g hg => ?_⟩
  rw [hget] at hg
  split_ifs at hg with heq
  · cases hg
    exact (hv heq.1.symm).mono hholds
  · exact (h.referential i g hg).mono hholds

/-! ### Deletion -/

/-- A deletion has different versions for different contents, as far as it compares them: those of
each stored group, and of what is left of it without the member. -/
def TellsApart (s : Service) (st : Store) : Action → Prop
  | .delete _ id _ => ∀ g ∈ st.list .group none, ∀ left ∈ withoutMember? id g,
      left.without "meta" ≠ g.without "meta" → s.versionOf left ≠ s.versionOf g
  | _ => True

/-- The contents that a deletion compares are always different. -/
theorem tellsApart_delete_iff {s : Service} {st : Store} {kind : Kind} {id : String}
    {clock : Nat → Instant} : s.TellsApart st (.delete kind id clock) ↔
      ∀ g ∈ st.list .group none, ∀ left ∈ withoutMember? id g,
        s.versionOf left ≠ s.versionOf g :=
  ⟨fun h g hg left hl => h g hg left hl (withoutMember?_content_ne hl),
    fun h g hg left hl _ => h g hg left hl⟩

instance (s : Service) (st : Store) (a : Action) : Decidable (s.TellsApart st a) :=
  match a with
  | .create .. => isTrue trivial
  | .replace .. => isTrue trivial
  | .patch .. => isTrue trivial
  | .delete .. => decidable_of_iff _ tellsApart_delete_iff.symm

/-- While groups are visited, those that still have the member are yet to be visited. -/
structure Leaving (s : Service) (id : String) (holds : String → Prop) (groups : List Json)
    (st : Store) : Prop where
  departing : s.Departing groups st
  told : ∀ g ∈ groups, ∀ left, withoutMember? id g = some left → s.versionOf left ≠ s.versionOf g
  waiting : ∀ g ∈ groups, Referential holds g
  stored : ∀ i g, st.get? .group i = some g → Referential holds g ∧ (FreeOf id g ∨ g ∈ groups)
  others : ∀ x, holds x → x = id ∨ st.Holds x

namespace Leaving

variable {g : Json} {groups : List Json}

theorem of_freeOf (h : s.Leaving id holds (g :: groups) st) (hfree : FreeOf id g) :
    s.Leaving id holds groups st where
  departing := h.departing.skip
  told g' hg := h.told g' (List.mem_cons_of_mem _ hg)
  waiting g' hg := h.waiting g' (List.mem_cons_of_mem _ hg)
  stored i g' hg := by
    obtain ⟨hr, hf⟩ := h.stored i g' hg
    refine ⟨hr, ?_⟩
    rcases hf with hf | hmem
    · exact .inl hf
    · rcases List.mem_cons.mp hmem with rfl | hmem
      · exact .inl hfree
      · exact .inr hmem
  others := h.others

/-- A group that is passed over does not have the member, as its version would tell. -/
theorem skip (h : s.Leaving id holds (g :: groups) st)
    (hwhy : g.identifier? = none ∨ withoutMember? id g = none ∨ ∃ left,
      withoutMember? id g = some left ∧ statedVersion? g = some (s.versionOf left)) :
    s.Leaving id holds groups st := by
  obtain ⟨i, hg, -⟩ := h.departing.waiting g List.mem_cons_self
  rcases hwhy with hnone | hnone | ⟨left, hleft, hv⟩
  · simp [hg.identifier?] at hnone
  · exact h.of_freeOf (freeOf_of_withoutMember? hnone)
  · -- the group states the version of its own content, which is not that of what is left
    rw [hg.stated] at hv
    exact absurd (Option.some.inj hv).symm (h.told g List.mem_cons_self left hleft)

theorem write (h : s.Leaving id holds (g :: groups) st) {i : String} {left : Json}
    (hi : g.identifier? = some i) (hleft : withoutMember? id g = some left) (now : Instant) :
    ∃ st', st.update .group i (s.restamped left now) = .ok st' ∧
      s.Leaving id holds groups st' := by
  obtain ⟨st', hst, hdep⟩ := h.departing.write hi hleft now
  have hget := Store.get?_update hst
  refine ⟨st', hst, hdep, fun g' hg => h.told g' (List.mem_cons_of_mem _ hg),
    fun g' hg => h.waiting g' (List.mem_cons_of_mem _ hg), fun j g' hg => ?_, fun x hx => ?_⟩
  · rw [hget] at hg
    split_ifs at hg with heq
    · cases hg
      have hr := withoutMember?_referential (h.waiting g List.mem_cons_self) hleft
      have hf := withoutMember?_freeOf hleft
      exact ⟨(referential_unassigned _).restamped s hr now,
        .inl ((freeOf_unassigned _).restamped s hf now)⟩
    · obtain ⟨hr, hf⟩ := h.stored j g' hg
      refine ⟨hr, ?_⟩
      rcases hf with hf | hmem
      · exact .inl hf
      · rcases List.mem_cons.mp hmem with rfl | hmem
        · -- the group itself is stored under its own identifier only
          have hj := (h.departing.stamped.each _ _ _ hg).identifier?
          rw [hi] at hj
          exact absurd ⟨rfl, (Option.some.inj hj).symm⟩ heq
        · exact .inr hmem
  · refine (h.others x hx).imp_right ?_
    rintro ⟨k, hk⟩
    refine ⟨k, ?_⟩
    rw [hget]
    split_ifs
    · rfl
    · exact hk

/-- When all groups are visited, none has the member. -/
theorem linked (h : s.Leaving id holds [] st) : s.Linked st := by
  refine ⟨h.departing.stamped, fun i g hg => ?_⟩
  obtain ⟨hr, hf⟩ := h.stored i g hg
  have hfree : FreeOf id g := hf.resolve_right (by simp)
  -- what was stored before is stored now, but for the deleted resource, which no member names
  refine ⟨hr.listed, fun items hi => (hr.resolved items hi).mono fun e he x hx hh => ?_⟩
  refine (h.others x hh).resolve_left ?_
  rintro rfl
  exact hfree items hi e he (memberId?_of_get? hx)

end Leaving

theorem leaving_of_delete {st₁ : Store} {clock : Nat → Instant} (h : s.Linked st)
    (ht : s.TellsApart st (.delete kind id clock)) (hd : st.delete kind id = .ok st₁) :
    s.Leaving id st.Holds (st₁.list .group none) st₁ := by
  have hdep := departing_of_delete h.stamped hd
  have hget := Store.get?_delete hd
  have before {i : String} {g : Json} (hg : st₁.get? .group i = some g) :
      st.get? .group i = some g := by
    rw [hget] at hg
    split_ifs at hg
    exact hg
  have listed {g : Json} (hg : g ∈ st₁.list .group none) : ∃ i, st₁.get? .group i = some g :=
    (Store.mem_list hdep.stamped.sorted).mp hg
  refine ⟨hdep, fun g hg => ?_, fun g hg => ?_, fun i g hg => ?_, fun x hx => ?_⟩
  · obtain ⟨i, hi⟩ := listed hg
    exact tellsApart_delete_iff.mp ht g ((Store.mem_list h.stamped.sorted).mpr ⟨i, before hi⟩)
  · obtain ⟨i, hi⟩ := listed hg
    exact h.referential i g (before hi)
  · -- every stored group is yet to be visited
    exact ⟨h.referential i g (before hg),
      .inr ((Store.mem_list hdep.stamped.sorted).mpr ⟨i, hg⟩)⟩
  · obtain ⟨k, hk⟩ := hx
    by_cases hx : x = id
    · exact .inl hx
    · refine .inr ⟨k, ?_⟩
      rw [hget]
      simpa [hx] using hk

/-! ### Runs -/

/-- The members of a modified group are a list, as those of the stored one are. -/
theorem patched_membersListed {r : Registry} {ops : List Operation} {existing patched : Json}
    (ho : existing.isObject = true) (hl : MembersListed existing.root)
    (h : Operation.applyAll r .group ops existing = .ok patched) : MembersListed patched.root := by
  obtain ⟨root, rfl⟩ := Json.isObject_iff.mp ho
  obtain ⟨root', rfl, hroot⟩ := (membersListed_rule r).applyAll hl h
  exact hroot

/-- Every change leaves a linked store, if a deletion tells the groups apart. -/
theorem perform_linked (h : s.Linked st) {a : Action} (ht : s.TellsApart st a) :
    s.Linked (s.perform st a) := by
  have hstamped := perform_stamped h.stamped a
  have hleft := s.perform_leaves st a
  generalize s.perform st a = st' at hstamped hleft ⊢
  cases hleft with
  | refused => exact h
  | created hb hunique hres hi =>
    obtain ⟨i, hid, -⟩ := Store.insert_eq_ok hi
    refine h.put hstamped (Store.get?_insert hi hid) ?_
    rintro rfl
    exact (referential_unassigned _).stamp s _
      (resolveMembers_referential (Registry.build_membersListed hb) hres) _ _ _
  | replaced hb he hunique hres hu =>
    refine h.put hstamped (Store.get?_update hu) ?_
    rintro rfl
    have hbuilt := resolveMembers_referential (Registry.build_membersListed hb) hres
    exact (referential_unassigned _).restamped s
      ((referential_unassigned _).keepAssigned _ hbuilt) _
  | patched he ha hunique hres hu =>
    refine h.put hstamped (Store.get?_update hu) ?_
    rintro rfl
    have hlisted := patched_membersListed (h.stamped.each _ _ _ he).isObject
      (h.referential _ _ he).listed ha
    exact (referential_unassigned _).restamped s (resolveMembers_referential hlisted hres) _
  | deleted hd =>
    obtain ⟨last, hleave, hlast⟩ := leaveGroups_rule (P := s.Leaving _ st.Holds) _ _ 0
      (fun g rest st h hwhy => h.skip hwhy)
      (fun g rest st i left now h hi hu => h.write hi hu now) (leaving_of_delete h ht hd)
    rw [hleave]
    exact hlast.linked

/-- Every deletion on the way tells the groups of its store apart. -/
def AlwaysTellsApart (s : Service) : Store → List Action → Prop
  | _, [] => True
  | st, a :: rest => s.TellsApart st a ∧ s.AlwaysTellsApart (s.perform st a) rest

instance decidableAlwaysTellsApart (s : Service) :
    (st : Store) → (actions : List Action) → Decidable (s.AlwaysTellsApart st actions)
  | _, [] => isTrue trivial
  | st, a :: rest =>
    have := decidableAlwaysTellsApart s (s.perform st a) rest
    inferInstanceAs (Decidable (_ ∧ _))

theorem performAll_linked_of {actions : List Action} (h : s.Linked st)
    (ht : s.AlwaysTellsApart st actions) : s.Linked (s.performAll st actions) := by
  induction actions generalizing st with
  | nil => exact h
  | cons a rest ih => exact ih (perform_linked h ht.1) ht.2

/-- A user and a group that it is a member of, and the deletion of the user. -/
def teamActions : List Action :=
  [ .create .user (.obj [("schemas", .arr [.str Urn.user]), ("userName", .str "bj")]) "" "u1"
      default,
    .create .group (.obj [("displayName", .str "Staff"),
      ("members", .arr [.obj [("value", .str "u1")]]), ("schemas", .arr [.str Urn.group])]) "" "g1"
      default,
    .delete .user "u1" fun _ => default ]

/-- All changes from the empty store on, in whatever order, leave groups whose members are
stored. -/
theorem performAll_linked {actions : List Action} (ht : s.AlwaysTellsApart .empty actions) :
    s.Linked (s.performAll .empty actions) :=
  performAll_linked_of s.linked_empty ht

theorem performAll_linked_team :
    (ofSettings .standard).AlwaysTellsApart .empty teamActions ∧
      (ofSettings .standard).Linked ((ofSettings .standard).performAll .empty teamActions) :=
  have htold : (ofSettings .standard).AlwaysTellsApart .empty teamActions := by decide +kernel
  ⟨htold, performAll_linked htold⟩

end Service

end Roster
