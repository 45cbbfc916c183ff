import Roster.Proofs.Service.Action

/-! User names. In every store that changes lead to from the empty one, each user has a name, and no
two users have the same one but for letter case. -/

namespace Roster

/-- The name of a user is a text, held under this very name. -/
structure UserNamed (name : String) (user : Json) : Prop where
  spelled : ∀ k ∈ Members.keys user.root, sameName "userName" k = true → k = "userName"
  given : user.get? "userName" = some (.str name)

/-- Every stored user has a name, and no two of them have the same one but for letter case. -/
structure Store.UserNames (st : Store) : Prop where
  named : ∀ id user, st.get? .user id = some user → ∃ name, UserNamed name user
  apart : ∀ id other user v name otherName, st.get? .user id = some user →
    st.get? .user other = some v → user.get? "userName" = some (.str name) →
    v.get? "userName" = some (.str otherName) → id ≠ other → sameName name otherName = false

/-! ### Named users -/

namespace UserNamed

variable {name : String} {user x : Json} {key : String}

theorem member? (h : UserNamed name user) : user.member? "userName" = some (.str name) :=
  Json.member?_of_get? h.given

theorem isObject (h : UserNamed name user) : user.isObject = true :=
  Json.isObject_of_get? h.given

theorem heldAs (h : UserNamed name user) :
    HeldAs "userName" (fun v => ∃ name, v = .str name) user.root := by
  refine ⟨h.spelled, fun v hv => ⟨name, ?_⟩⟩
  obtain ⟨root, rfl⟩ := Json.isObject_iff.mp h.isObject
  have hgiven : Members.get? root "userName" = some (.str name) := h.given
  exact Option.some.inj (hv.symm.trans hgiven)

/-- A text that is held for the name in whatever case is held under this very name. -/
theorem of_heldAs (h : HeldAs "userName" (fun v => ∃ name, v = .str name) user.root)
    (hf : (Members.find? user.root "userName").isSome = true) : ∃ name, UserNamed name user := by
  obtain ⟨v, hv⟩ := Option.isSome_iff_exists.mp hf
  obtain ⟨name, rfl⟩ := h.found hv
  refine ⟨name, h.spelled, ?_⟩
  rw [Members.find?_eq_get? h.spelled] at hv
  cases user with
  | obj root => exact hv
  | _ => simp [Json.root, Json.members?, Members.get?] at hv

/-- A member of another name does not matter. -/
theorem put (h : UserNamed name user) (hk : sameName "userName" key = false) :
    UserNamed name (user.put key x) := by
  have hne := Members.ne_of_not_same hk
  refine ⟨(h.heldAs.put h.isObject (fun hs => ?_) fun hn => absurd hn.symm hne).spelled, ?_⟩
  · rw [hk] at hs
    cases hs
  · rw [Json.get?_put_of_ne hne, h.given]

end UserNamed

/-! ### Modified and built users -/

/-- Among the attributes of a user there is one by the name of `userName`, which holds a text. -/
theorem userName_attribute : ∀ a ∈ Kind.user.attributes, sameName "userName" a.name = true →
    a.name = "userName" ∧ a.multiValued = false ∧ a.type = .string := by
  decide

/-- The attribute that every user must have. -/
theorem userName_required : ∃ a ∈ Kind.user.coreSchema.attributes,
    a.name = "userName" ∧ a.required = true :=
  ⟨_, List.mem_cons_self, rfl, rfl⟩

/-- Modifications leave the name of a user as a text under this very name. -/
theorem userName_rule (r : Registry) :
    PatchRule r .user False (fun a v => a.name = "userName" → ∃ name, v = .str name)
      (fun _ _ => True) (fun _ _ => True)
      (HeldAs "userName" fun v => ∃ name, v = .str name) := by
  have text {a : Attribute} (hd : Defined Kind.user.attributes a) (hn : a.name = "userName") :
      a.multiValued = false ∧ a.type = .string :=
    (userName_attribute a (findAttribute?_mem hd.found) (hn ▸ sameName_refl _)).2
  refine heldAs_rule r (by decide) (by decide)
    (fun a ha hs => (userName_attribute a ha hs).1) (fun a hd hn => ?_) (fun a hd hn _ => ?_)
  · obtain ⟨hm, ht⟩ := text hd hn
    refine ⟨fun hlist => ?_, fun _ h => ?_, fun _ hc => ?_⟩
    · simp [hm] at hlist
    · rw [checkSingle_of_ne_complex (by simp [ht]), checkScalar_eq_ok, ht] at h
      obtain ⟨name, -, rfl⟩ := Option.map_eq_some_iff.mp h
      exact ⟨name, rfl⟩
    · simp [ht] at hc
  · simp [(text hd hn).2]

theorem UserNamed.applyAll {r : Registry} {name : String} {ops : List Operation} {user v : Json}
    (h : UserNamed name user) (ha : Operation.applyAll r .user ops user = .ok v) :
    ∃ newName, UserNamed newName v := by
  obtain ⟨root, rfl⟩ := Json.isObject_iff.mp h.isObject
  obtain ⟨a, ha', hname, hr⟩ := userName_required
  obtain ⟨root', rfl, hheld⟩ := (userName_rule r).applyAll h.heldAs ha
  -- the name is required, so that it is not lost
  have hfound : (Members.find? root a.name).isSome = true := by
    have hmember : Members.find? root "userName" = some (.str name) := h.member?
    simp [hname, hmember]
  obtain ⟨_, heq, hkept⟩ := (required_rule r ha' hr).applyAll hfound ha
  cases heq
  exact UserNamed.of_heldAs hheld (hname ▸ hkept)

theorem Registry.build_userNamed {r : Registry} {body v : Json}
    (h : r.build .user body = .ok v) : ∃ name, UserNamed name v := by
  have ho := build_isObject h
  obtain ⟨attributes, schemas, w, hw, rfl, hmissing⟩ := build_eq_ok h
  have hblank : HeldAs "userName" (fun v => ∃ name, v = .str name)
      [("schemas", .arr [.str Kind.user.coreSchema.id])] :=
    ⟨by decide, fun v hv => by simp [Members.get?] at hv⟩
  -- a name that is there is a string; that it is there is the check of required attributes
  obtain ⟨root, rfl, hroot⟩ := (userName_rule r).apply hblank hw
  have hheld : HeldAs "userName" (fun v => ∃ name, v = .str name)
      (r.declareExtensions .user schemas (.obj root)).root := by
    rcases r.declareExtensions_eq .user schemas (.obj root) with heq | ⟨x, heq⟩
    · rwa [heq]
    · rw [heq]
      exact hroot.put (v := .obj root) rfl (fun hs => absurd hs (by decide))
        fun hn => absurd hn (by decide)
  refine UserNamed.of_heldAs hheld ?_
  obtain ⟨a, ha, hname, hr⟩ := userName_required
  have hnone := List.find?_eq_none.mp hmissing a ha
  obtain ⟨root', hobj⟩ := Json.isObject_iff.mp ho
  rw [hobj] at hnone ⊢
  rw [hname, hr, Bool.true_and] at hnone
  change (Members.find? root' "userName").isSome = true
  cases hf : Members.find? root' "userName" with
  | some x => rfl
  | none => simp [Json.member?, Json.members?, hf] at hnone

/-! ### The search for another user of the name -/

namespace Store

variable {st st' : Store} {kind : Kind} {id : String} {v : Json} {p : Probe}

theorem finds_eq_false (h : st.find? p = none) (hv : st.get? p.kind id = some v) :
    p.finds id v = false := by
  obtain ⟨e, he, rfl⟩ := Option.map_eq_some_iff.mp hv
  have hnone := List.findSome?_eq_none_iff.mp h _ (Members.mem_of_get? he)
  simpa using hnone

/-- Users that are stored as before keep their names apart. -/
theorem UserNames.of_users (h : st.UserNames)
    (hget : ∀ i v, st'.get? .user i = some v → st.get? .user i = some v) : st'.UserNames where
  named i u hu := h.named i u (hget i u hu)
  apart i j u v n m hu hv := h.apart i j u v n m (hget i u hu) (hget j v hv)

/-- Names stay apart when a resource is put that, if it is a user, has a name that no other user
has. -/
theorem UserNames.put (h : st.UserNames)
    (hget : ∀ k i, st'.get? k i = if k = kind ∧ i = id then some v else st.get? k i)
    (hv : kind = .user → ∃ name, UserNamed name v ∧ ∀ i u n, i ≠ id → st.get? .user i = some u →
      u.get? "userName" = some (.str n) → sameName n name = false) : st'.UserNames := by
  by_cases hkind : kind = .user
  · obtain ⟨name, hnamed, hfree⟩ := hv hkind
    subst hkind
    have stored {i : String} {u : Json} (hu : st'.get? .user i = some u) :
        (i = id ∧ u = v) ∨ (i ≠ id ∧ st.get? .user i = some u) := by
      rw [hget] at hu
      by_cases hi : i = id
      · simp only [hi, and_self, if_true, Option.some.injEq] at hu
        exact .inl ⟨hi, hu.symm⟩
      · simp only [hi, and_false, if_false] at hu
        exact .inr ⟨hi, hu⟩
    have given {n : String} (hn : v.get? "userName" = some (.str n)) : name = n := by
      rw [hnamed.given] at hn
      exact Json.str.inj (Option.some.inj hn)
    refine ⟨fun i u hu => ?_, fun i j u w n m hu hw hn hm hij => ?_⟩
    · rcases stored hu with ⟨-, rfl⟩ | ⟨-, hu⟩
      · exact ⟨name, hnamed⟩
      · exact h.named i u hu
    · -- two different users cannot both be the one that is put
      rcases stored hu with ⟨hi, rfl⟩ | ⟨hi, hu⟩ <;> rcases stored hw with ⟨hj, rfl⟩ | ⟨hj, hw⟩
      · exact absurd (hi.trans hj.symm) hij
      · rw [sameName_comm, ← given hn]
        exact hfree j w m hj hw hm
      · rw [← given hm]
        exact hfree i u n hi hu hn
      · exact h.apart i j u w n m hu hw hn hm hij
  · -- a group is put, which is no user
    refine h.of_users fun i u hu => ?_
    rw [hget] at hu
    simpa [Ne.symm hkind] using hu

end Store

namespace Service

variable {s : Service} {st st' : Store} {kind : Kind} {id baseUrl : String} {now : Instant}

/-- A check that succeeds leaves the name to this user alone. -/
theorem checkUnique_free {v : Json} {name : String} {apartFrom : Option String}
    (h : (checkUnique .user v apartFrom).run st = (.ok (), st))
    (hn : v.member? "userName" = some (.str name)) {other n : String} {u : Json}
    (ho : apartFrom ≠ some other) (hu : st.get? .user other = some u)
    (hname : u.get? "userName" = some (.str n)) : sameName n name = false := by
  simp only [checkUnique, hn, Option.bind_some, Json.string?] at h
  obtain ⟨found, s₁, hfind, h⟩ := Task.bind_run_ok.mp h
  obtain ⟨rfl, rfl⟩ : st.find? ⟨.user, "userName", name, false, apartFrom⟩ = found ∧ st = s₁ := by
    simpa using hfind
  cases hf : st.find? ⟨.user, "userName", name, false, apartFrom⟩ with
  | some w => simp [hf] at h
  | none =>
    have hfinds := Store.finds_eq_false hf hu
    simpa [Probe.finds, Json.member?_of_get? hname, Json.string?, ho] using hfinds

/-! ### What the server writes -/

theorem userNamed_unassigned (name : String) : Unassigned (UserNamed name) :=
  ⟨fun _ h => h.put (by decide), fun _ h => h.put (by decide)⟩

/-- Resolving members leaves a user as it is. -/
theorem resolveMembers_user {v w : Json}
    (h : (resolveMembers .user v baseUrl).run st = (.ok w, st')) : w = v := by
  obtain ⟨rfl, -⟩ : v = w ∧ st = st' := by simpa [resolveMembers] using h
  rfl

/-- Users are as before when a resource has left groups. -/
theorem leaveGroups_users (id : String) (clock : Nat → Instant) (written : Nat)
    (groups : List Json) (i : String) :
    (((s.leaveGroups id clock written groups).run st).2).get? .user i = st.get? .user i := by
  refine leaveGroups_keeps (P := fun st' => st'.get? .user i = st.get? .user i) id clock written
    (fun _ _ _ _ _ _ _ _ hleft hu => ?_) rfl
  -- what is written is a group
  rw [Store.get?_update hu]
  simpa using hleft

/-! ### Runs -/

/-- Every change leaves users with names apart. -/
theorem perform_userNames (h : st.UserNames) (a : Action) : (s.perform st a).UserNames := by
  have hleft := s.perform_leaves st a
  generalize s.perform st a = st' at hleft ⊢
  cases hleft with
  | refused => exact h
  | created hb hunique hres hi =>
    obtain ⟨i, hid, -⟩ := Store.insert_eq_ok hi
    refine h.put (Store.get?_insert hi hid) ?_
    rintro rfl
    obtain rfl := resolveMembers_user hres
    obtain ⟨name, hnamed⟩ := Registry.build_userNamed hb
    -- the search passes over nobody here, and below over the user that is changed
    exact ⟨name, (userNamed_unassigned name).stamp s _ hnamed _ _ _, fun j u n _ hu hn =>
      checkUnique_free hunique hnamed.member? (by simp) hu hn⟩
  | replaced hb he hunique hres hu =>
    refine h.put (Store.get?_update hu) ?_
    rintro rfl
    obtain rfl := resolveMembers_user hres
    obtain ⟨name, hnamed⟩ := Registry.build_userNamed hb
    have hfree := userNamed_unassigned name
    exact ⟨name, hfree.restamped s (hfree.keepAssigned _ hnamed) _, fun j u n hj hu hn =>
      checkUnique_free hunique hnamed.member? (by simpa using hj.symm) hu hn⟩
  | patched he ha hunique hres hu =>
    refine h.put (Store.get?_update hu) ?_
    rintro rfl
    obtain rfl := resolveMembers_user hres
    obtain ⟨_, hold⟩ := h.named _ _ he
    obtain ⟨name, hnamed⟩ := hold.applyAll ha
    exact ⟨name, (userNamed_unassigned name).restamped s hnamed _, fun j u n hj hu hn =>
      checkUnique_free hunique hnamed.member? (by simpa using hj.symm) hu hn⟩
  | deleted hd =>
    refine h.of_users fun i u hu => ?_
    rw [leaveGroups_users, Store.get?_delete hd] at hu
    split_ifs at hu
    exact hu

theorem userNames_empty : Store.empty.UserNames where
  named id u h := by simp [Store.get?, Store.entries, Store.empty, Members.get?] at h
  apart id _ u _ _ _ h := by simp [Store.get?, Store.entries, Store.empty, Members.get?] at h

theorem performAll_userNames_of (h : st.UserNames) (actions : List Action) :
    (s.performAll st actions).UserNames :=
  performAll_rule (P := Store.UserNames) (fun _ a h => perform_userNames h a) h actions

/-- All changes from the empty store on, in whatever order, leave users with names apart. -/
theorem performAll_userNames (s : Service) (actions : List Action) :
    (s.performAll .empty actions).UserNames :=
  performAll_userNames_of userNames_empty actions

end Service

end Roster
