import Roster.Proofs.Service.Records
import Roster.Proofs.Store.Order

/-! The order of stored resources, told from the changes alone: a creation that succeeds puts a
resource behind the others of its kind, a deletion that succeeds takes one out, and nothing else
moves any. -/

namespace Roster

namespace Service

variable {s : Service} {st st' : Store} {kind : Kind} {id baseUrl : String} {body : Json}
  {now : Instant}

/-- Identifiers of a kind in the order of insertion, after a change that succeeds. -/
def Action.reordered (kind : Kind) (ids : List String) : Action → List String
  | .create k _ _ id _ => if k = kind then ids ++ [id] else ids
  | .delete k id _ => if k = kind then ids.filter (· ≠ id) else ids
  | _ => ids

/-- The identifiers of a kind in the order of their insertion, after changes in turn. -/
def inserted (s : Service) (kind : Kind) : Store → List String → List Action → List String
  | _, ids, [] => ids
  | st, ids, a :: rest =>
    s.inserted kind (s.perform st a) (if s.Succeeds st a then a.reordered kind ids else ids) rest

/-! ### Changes -/

/-- A creation that succeeds inserts a resource under its identifier. -/
theorem create_inserts (h : s.Succeeds st (.create kind body baseUrl id now) = true) :
    ∃ v, v.identifier? = some id ∧
      st.insert kind v = .ok (s.perform st (.create kind body baseUrl id now)) := by
  obtain ⟨shown, hshown⟩ := exists_ok h
  have hrun : (s.create kind body baseUrl id now).task.run st =
      (.ok shown, s.perform st (.create kind body baseUrl id now)) := Prod.ext hshown rfl
  generalize s.perform st (.create kind body baseUrl id now) = st' at hrun ⊢
  rw [create_eq] at hrun
  cases hb : s.registry.build kind body with
  | error e =>
    rw [hb] at hrun
    cases hrun
  | ok built =>
    rw [hb] at hrun
    obtain ⟨-, resolved, stored, hres, hwrite, -⟩ := settle_run_ok.mp hrun
    have hstamped := s.stamp_stamped kind (isObject_resolved (Registry.build_isObject hb) hres)
      baseUrl id now
    refine ⟨_, hstamped.identifier?, ?_⟩
    rw [Task.run_insert] at hwrite
    cases hi : st.insert kind (s.stamp kind resolved baseUrl id now) with
    | error e =>
      rw [hi] at hwrite
      cases hwrite
    | ok st₁ =>
      rw [hi] at hwrite
      exact congrArg Except.ok (congrArg Prod.snd hwrite)

/-- A deletion that succeeds deletes the resource, and then only groups are updated. -/
theorem delete_deletes {clock : Nat → Instant}
    (h : s.Succeeds st (.delete kind id clock) = true) : ∃ st₁, st.delete kind id = .ok st₁ ∧
      s.perform st (.delete kind id clock) =
        ((s.leaveGroups id clock 0 (st₁.list .group none)).run st₁).2 := by
  rcases s.delete_run kind id clock st with ⟨-, -, e, hrun⟩ | ⟨st₁, hd, hrun⟩
  · rw [Succeeds, hrun] at h
    cases h
  · exact ⟨st₁, hd, congrArg Prod.snd hrun⟩

theorem exists_error {ε α : Type} {x : Except ε α} (h : x.toBool = false) : ∃ e, x = .error e := by
  cases x with
  | ok a => cases h
  | error e => exact ⟨e, rfl⟩

/-- A change that fails leaves a store of stamped resources as it was. -/
theorem perform_failed (hs : s.AllStamped st) {a : Action} (h : s.Succeeds st a = false) :
    s.perform st a = st := by
  cases a with
  | create kind body baseUrl id now =>
    obtain ⟨e, he⟩ := exists_error h
    exact s.create_atomic _ _ _ _ _ st e _ (Prod.ext he rfl)
  | replace kind id body baseUrl now =>
    obtain ⟨e, he⟩ := exists_error h
    exact s.replace_atomic _ _ _ _ _ st e _ (Prod.ext he rfl)
  | patch kind id request baseUrl now =>
    obtain ⟨e, he⟩ := exists_error h
    exact s.patch_atomic _ _ _ _ _ st e _ (Prod.ext he rfl)
  | delete kind id clock =>
    obtain ⟨e, he⟩ := exists_error h
    exact delete_refused hs (Prod.ext he rfl)

/-- A revision puts a resource in the place of another, or nothing. -/
theorem revision_order (hn : st.Numbered)
    (h : st' = st ∨ ∃ kind id v, st.update kind id v = .ok st') :
    st'.Numbered ∧ ∀ other, st'.order other = st.order other := by
  rcases h with rfl | ⟨kind, id, v, hu⟩
  · exact ⟨hn, fun _ => rfl⟩
  · exact Store.order_update hn hu

/-- What a change does to the order of the stored resources. -/
theorem perform_order (hs : s.AllStamped st) (hn : st.Numbered) (a : Action) :
    (s.perform st a).Numbered ∧ ∀ kind, (s.perform st a).order kind =
      if s.Succeeds st a then a.reordered kind (st.order kind) else st.order kind := by
  cases hok : s.Succeeds st a with
  | false =>
    rw [perform_failed hs hok]
    exact ⟨hn, fun _ => rfl⟩
  | true =>
    simp only [if_true]
    cases a with
    | create k body baseUrl id now =>
      obtain ⟨v, hid, hi⟩ := create_inserts hok
      obtain ⟨hnumbered, hlast, hrest⟩ := Store.order_insert hn hi hid
      refine ⟨hnumbered, fun kind => ?_⟩
      by_cases hk : k = kind
      · subst hk
        rw [Action.reordered, if_pos rfl, hlast]
      · rw [Action.reordered, if_neg hk, hrest kind (Ne.symm hk)]
    | replace k id body baseUrl now =>
      refine revision_order hn ?_
      rcases replace_left (rfl : _ = s.perform st (.replace k id body baseUrl now)) with
        heq | ⟨_, _, _, -, -, -, -, hu⟩
      · exact .inl heq
      · exact .inr ⟨_, _, _, hu⟩
    | patch k id request baseUrl now =>
      refine revision_order hn ?_
      rcases patch_left (rfl : _ = s.perform st (.patch k id request baseUrl now)) with
        heq | ⟨_, _, _, -, -, -, -, hu⟩
      · exact .inl heq
      · exact .inr ⟨_, _, _, hu⟩
    | delete k id clock =>
      obtain ⟨st₁, hd, hleft⟩ := delete_deletes hok
      obtain ⟨hnumbered, hgone, hrest⟩ := Store.order_delete hn hd
      -- groups that are left are updated in their places
      have hleave : ((s.leaveGroups id clock 0 (st₁.list .group none)).run st₁).2.Numbered ∧
          ∀ kind, ((s.leaveGroups id clock 0 (st₁.list .group none)).run st₁).2.order kind =
            st₁.order kind := by
        refine leaveGroups_keeps
          (P := fun st' => st'.Numbered ∧ ∀ kind, st'.order kind = st₁.order kind) id clock 0
          (fun _ _ _ _ _ _ _ _ h hu => ?_) ⟨hnumbered, fun _ => rfl⟩
        obtain ⟨hn', hsame⟩ := Store.order_update h.1 hu
        exact ⟨hn', fun kind => (hsame kind).trans (h.2 kind)⟩
      rw [hleft]
      refine ⟨hleave.1, fun kind => ?_⟩
      rw [hleave.2]
      by_cases hk : k = kind
      · subst hk
        rw [Action.reordered, if_pos rfl, hgone]
      · rw [Action.reordered, if_neg hk, hrest kind (Ne.symm hk)]

/-! ### Runs -/

theorem performAll_order_of (hs : s.AllStamped st) (hn : st.Numbered) (actions : List Action) :
    (s.performAll st actions).Numbered ∧
      ∀ kind,
        (s.performAll st actions).order kind = s.inserted kind st (st.order kind) actions := by
  induction actions generalizing st with
  | nil => exact ⟨hn, fun _ => rfl⟩
  | cons a rest ih =>
    obtain ⟨hnumbered, horder⟩ := perform_order hs hn a
    obtain ⟨hlast, hrest⟩ := ih (perform_stamped hs a) hnumbered
    refine ⟨hlast, fun kind => ?_⟩
    rw [inserted, ← horder kind]
    exact hrest kind

/-- After changes from the empty store on, resources are listed in the order in which the changes
have inserted them. -/
theorem performAll_list (s : Service) (actions : List Action) (kind : Kind) :
    (s.performAll .empty actions).list kind none =
      (s.inserted kind .empty [] actions).filterMap ((s.performAll .empty actions).get? kind) := by
  obtain ⟨hnumbered, horder⟩ :=
    performAll_order_of (s := s) (Store.all_empty _) Store.numbered_empty actions
  rw [Store.list_eq hnumbered, horder, Store.order_empty]

/-- The listed identifiers are those of the stored resources, each once. -/
theorem performAll_inserted (s : Service) (actions : List Action) (kind : Kind) :
    (s.inserted kind .empty [] actions).Nodup ∧ ∀ id, id ∈ s.inserted kind .empty [] actions ↔
      ((s.performAll .empty actions).get? kind id).isSome = true := by
  obtain ⟨hnumbered, horder⟩ :=
    performAll_order_of (s := s) (Store.all_empty _) Store.numbered_empty actions
  have hsame := horder kind
  rw [Store.order_empty] at hsame
  rw [← hsame]
  exact ⟨hnumbered.nodup_order kind, fun id => Store.mem_order⟩

end Service

end Roster
