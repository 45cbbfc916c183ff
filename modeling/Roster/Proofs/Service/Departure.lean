import Roster.Proofs.Service.Groups
import Roster.Proofs.Service.Membership

/-! What the deletion of a resource comes to. In every store that changes lead to from the empty
one, it takes the resource out, and its memberships out of the groups that have it as a member. All
else that is stored stays as it is and where it is. -/

namespace Roster

namespace Json

variable {v : Json} {key other : String}

theorem without_comm : (v.without key).without other = (v.without other).without key := by
  cases v with
  | obj ms => exact congrArg obj (List.filter_comm _ _ _)
  | _ => rfl

theorem without_without_self : (v.without key).without key = v.without key := by
  cases v with
  | obj ms => simp [without, Members.erase]
  | _ => rfl

end Json

namespace Service

variable {s : Service} {st st' start : Store} {kind : Kind} {id : String} {clock : Nat → Instant}
  {g left : Json} {groups : List Json}

/-! ### Groups whose members are named -/

/-- The members of each stored group are a list, whose elements each name something. -/
abbrev AllNamed (st : Store) : Prop :=
  st.All fun kind _ v => kind = .group → Referential (fun _ => True) v

theorem resolveMembers_named {v w : Json} {baseUrl : String} (hl : MembersListed v.root)
    (h : (resolveMembers .group v baseUrl).run st = (.ok w, st')) :
    Referential (fun _ => True) w :=
  (resolveMembers_referential hl h).mono fun _ _ => trivial

theorem named_kept (hs : s.AllStamped st) :
    s.Kept st fun kind v => kind = .group → Referential (fun _ => True) v where
  unassigned _ := ⟨fun x hv hk => (hv hk).put (by decide), fun x hv hk => (hv hk).put (by decide)⟩
  built hb hres hk := by
    subst hk
    exact resolveMembers_named (Registry.build_membersListed hb) hres
  patched he hv ha hres hk := by
    subst hk
    have hlisted := patched_membersListed (hs.each _ _ _ he).isObject (hv rfl).listed ha
    exact resolveMembers_named hlisted hres
  left hg hl _ := withoutMember?_referential (hg rfl) hl

theorem perform_named (hs : s.AllStamped st) (h : AllNamed st) (a : Action) :
    AllNamed (s.perform st a) :=
  perform_all (named_kept hs) h a

theorem performAll_named (s : Service) (actions : List Action) :
    AllNamed (s.performAll .empty actions) :=
  (performAll_rule (P := fun st => s.AllStamped st ∧ AllNamed st)
    (fun _ a h => ⟨perform_stamped h.1 a, perform_named h.1 h.2 a⟩)
    ⟨Store.all_empty _, Store.all_empty _⟩ actions).2

/-! ### What is left of a group -/

/-- The members of a group are found under this very name. -/
theorem member?_members (h : MembersListed g.root) : g.member? "members" = g.get? "members" := by
  cases g with
  | obj root => exact Members.find?_eq_get? h.spelled
  | _ => rfl

/-- A group is rewritten exactly if it has the member. -/
theorem exists_withoutMember?_iff (h : MembersListed g.root) :
    (∃ left, withoutMember? id g = some left) ↔ InGroup id g := by
  constructor
  · rintro ⟨left, hleft⟩
    obtain ⟨items, hitems, hlength, -⟩ := withoutMember?_some hleft
    obtain ⟨m, hm, hid⟩ : ∃ m ∈ items, memberId? m = some id := by
      by_contra hno
      refine hlength (List.length_filter_eq_length_iff.mpr fun m hm => ?_)
      simpa using fun hid => hno ⟨m, hm, hid⟩
    exact ⟨items, Json.member?_of_get? hitems, m, hm, memberId?_eq_some.mp hid⟩
  · rintro ⟨items, hitems, m, hm, hid⟩
    rw [member?_members h] at hitems
    cases hleft : withoutMember? id g with
    | some left => exact ⟨left, rfl⟩
    | none =>
      exact absurd (memberId?_eq_some.mpr hid) (freeOf_of_withoutMember? hleft items hitems m hm)

/-- The members of a group that are left without one. -/
def othersOf (id : String) (items : List Json) : List Json :=
  items.filter fun m => m.member? "value" ≠ some (.str id)

theorem withoutMember?_members (h : withoutMember? id g = some left) :
    ∃ items, g.get? "members" = some (.arr items) ∧ left.get? "members" =
      if (othersOf id items).isEmpty then none else some (.arr (othersOf id items)) := by
  have hkept : ∀ items : List Json,
      (items.filter fun m => memberId? m != some id) = othersOf id items := by
    refine fun items => List.filter_congr fun m _ => ?_
    rw [Bool.eq_iff_iff, bne_iff_ne, decide_eq_true_iff, Ne, Ne, memberId?_eq_some]
  unfold withoutMember? at h
  split at h
  · rename_i items hitems
    simp only [hkept] at h
    refine ⟨items, hitems, ?_⟩
    split_ifs at h ⊢
    · rw [← Option.some.inj h, Json.get?_without_self]
    · rw [← Option.some.inj h, Json.get?_put_self (Json.isObject_of_get? hitems)]
  · cases h

theorem withoutMember?_without_members (h : withoutMember? id g = some left) :
    left.without "members" = g.without "members" := by
  obtain ⟨items, -, -, rfl | rfl⟩ := withoutMember?_some h
  · exact Json.without_without_self
  · exact Json.without_put_self

/-- A group that a member has left: it has its other members in their order, and no members when
none is left. Its metadata state when that was and the version of what it is now. -/
structure LeftBy (s : Service) (id : String) (g left : Json) : Prop where
  members : ∃ items, g.member? "members" = some (.arr items) ∧ left.member? "members" =
    if (othersOf id items).isEmpty then none else some (.arr (othersOf id items))
  metadata : ∃ held now, g.get? "meta" = some (.obj held) ∧
    left.get? "meta" = some (.obj (Members.merge held
      [("lastModified", .str (Instant.toText now)), ("version", .str (s.versionOf left))]))
  others : (left.without "members").without "meta" = (g.without "members").without "meta"

theorem leftBy_restamped {held : Members Json} (hr : Referential (fun _ => True) g)
    (hm : g.get? "meta" = some (.obj held)) (h : withoutMember? id g = some left) (now : Instant) :
    s.LeftBy id g (s.restamped left now) := by
  have hmeta : left.get? "meta" = some (.obj held) :=
    (withoutMember?_get?_of_ne (by decide) h).trans hm
  have hstored : s.restamped left now = left.put "meta" (.obj (Members.merge held
      [("lastModified", .str now.toText), ("version", .str (s.versionOf left))])) :=
    putMeta_eq hmeta _
  have hversion : s.versionOf (s.restamped left now) = s.versionOf left :=
    congrArg s.version (restamped_without_meta now)
  have hlisted : MembersListed (s.restamped left now).root :=
    ((referential_unassigned _).restamped s (withoutMember?_referential hr h) now).listed
  refine ⟨?_, ⟨held, now, hm, ?_⟩, ?_⟩
  · obtain ⟨items, hitems, hleft⟩ := withoutMember?_members h
    refine ⟨items, Json.member?_of_get? hitems, ?_⟩
    rw [member?_members hlisted, hstored, Json.get?_put_of_ne (by decide), hleft]
  · rw [hversion, hstored, Json.get?_put_self (Json.isObject_of_get? hmeta)]
  · rw [Json.without_comm, restamped_without_meta, Json.without_comm,
      withoutMember?_without_members h]

/-! ### Leaving the groups -/

/-- While groups are visited, each stored resource is as it was at the start, or a group that has
been left; one that still has the member is yet to be visited. -/
structure Parting (s : Service) (id : String) (start : Store) (groups : List Json) (st : Store) :
    Prop where
  departing : s.Departing groups st
  told : ∀ g ∈ groups, ∀ left, withoutMember? id g = some left → s.versionOf left ≠ s.versionOf g
  waiting : ∀ g ∈ groups, ∀ i, g.identifier? = some i → start.get? .group i = some g
  stored : ∀ k i, (st.get? k i = start.get? k i ∧
      ∀ g, k = .group → st.get? k i = some g → withoutMember? id g = none ∨ g ∈ groups) ∨
    ∃ g left now, k = .group ∧ start.get? k i = some g ∧ withoutMember? id g = some left ∧
      st.get? k i = some (s.restamped left now)

namespace Parting

theorem skip (h : s.Parting id start (g :: groups) st)
    (hwhy : g.identifier? = none ∨ withoutMember? id g = none ∨ ∃ left,
      withoutMember? id g = some left ∧ statedVersion? g = some (s.versionOf left)) :
    s.Parting id start groups st := by
  obtain ⟨i, hg, -⟩ := h.departing.waiting g List.mem_cons_self
  -- the group states the version of its own content, which is not that of what would be left
  have hfree : withoutMember? id g = none := by
    rcases hwhy with hnone | hnone | ⟨left, hleft, hv⟩
    · simp [hg.identifier?] at hnone
    · exact hnone
    · rw [hg.stated] at hv
      exact absurd (Option.some.inj hv).symm (h.told g List.mem_cons_self left hleft)
  refine ⟨h.departing.skip, fun g' hg' => h.told g' (List.mem_cons_of_mem _ hg'),
    fun g' hg' => h.waiting g' (List.mem_cons_of_mem _ hg'), fun k j => ?_⟩
  refine (h.stored k j).imp_left fun ⟨hsame, hto⟩ => ⟨hsame, fun g' hk hg' => ?_⟩
  rcases hto g' hk hg' with hnone | hmem
  · exact .inl hnone
  · rcases List.mem_cons.mp hmem with rfl | hmem
    · exact .inl hfree
    · exact .inr hmem

theorem write {i : String} (h : s.Parting id start (g :: groups) st) (hi : g.identifier? = some i)
    (hleft : withoutMember? id g = some left) (now : Instant) :
    ∃ st', st.update .group i (s.restamped left now) = .ok st' ∧
      s.Parting id start groups st' := by
  obtain ⟨st', hst, hdep⟩ := h.departing.write hi hleft now
  have hget := Store.get?_update hst
  refine ⟨st', hst, hdep, fun g' hg' => h.told g' (List.mem_cons_of_mem _ hg'),
    fun g' hg' => h.waiting g' (List.mem_cons_of_mem _ hg'), fun k j => ?_⟩
  rw [hget]
  split_ifs with heq
  · obtain ⟨rfl, rfl⟩ := heq
    exact .inr ⟨g, left, now, rfl, h.waiting g List.mem_cons_self j hi, hleft, rfl⟩
  · refine (h.stored k j).imp_left fun ⟨hsame, hto⟩ => ⟨hsame, fun g' hk hg' => ?_⟩
    refine (hto g' hk hg').imp_right fun hmem => ?_
    rcases List.mem_cons.mp hmem with rfl | hmem
    · -- the group itself is stored under its own identifier only
      have hj := (h.departing.stamped.each _ _ _ hg').identifier?
      rw [hi] at hj
      exact absurd ⟨hk, (Option.some.inj hj).symm⟩ heq
    · exact hmem

end Parting

theorem parting_of_delete (h : s.AllStamped st) (ht : s.TellsApart st (.delete kind id clock))
    (hd : st.delete kind id = .ok start) :
    s.Parting id start (start.list .group none) start := by
  have hdep := departing_of_delete h hd
  have hlist : ∀ g, g ∈ start.list .group none ↔ ∃ i, start.get? .group i = some g :=
    fun g => Store.mem_list hdep.stamped.sorted
  refine ⟨hdep, fun g hg left hleft => ?_, fun g hg i hi => ?_, fun k i => .inl ⟨rfl, ?_⟩⟩
  · -- what is stored after the deletion was stored before
    obtain ⟨i, hi⟩ := (hlist g).mp hg
    rw [Store.get?_delete hd] at hi
    split_ifs at hi
    exact tellsApart_delete_iff.mp ht g ((Store.mem_list h.sorted).mpr ⟨i, hi⟩) left hleft
  · obtain ⟨j, hj⟩ := (hlist g).mp hg
    -- a stored group has its own identifier
    have hij := (hdep.stamped.each _ _ _ hj).identifier?
    rw [hi] at hij
    cases hij
    exact hj
  · rintro g rfl hg
    exact .inr ((hlist g).mpr ⟨i, hg⟩)

/-! ### Deletions -/

theorem delete_missing (h : st.get? kind id = none) :
    (s.delete kind id clock).task.run st = (.error (.notFound kind id), st) := by
  have hd : st.delete kind id = .error .notFound := by simp [Store.delete, h]
  have hrun : (s.delete kind id clock).task.run st =
      Task.run (Task.ask (.delete kind id) >>= _) st := rfl
  rw [Task.run_bind, Task.run_ask, Store.answer, hd] at hrun
  exact hrun

/-- What a deletion comes to: the resource is gone, and the groups that it was a member of are left
by it. Everything else is as it was, and nothing moves. -/
structure Deleted (s : Service) (kind : Kind) (id : String) (st st' : Store) : Prop where
  gone : st'.get? kind id = none
  groups : ∀ i g, st.get? .group i = some g → InGroup id g → ¬ (.group = kind ∧ i = id) →
    ∃ left, st'.get? .group i = some left ∧ s.LeftBy id g left
  others : ∀ k i, (∀ g, k = .group → st.get? k i = some g → ¬ InGroup id g) →
    ¬ (k = kind ∧ i = id) → st'.get? k i = st.get? k i
  order : ∀ k, st'.order k = if k = kind then (st.order k).filter (· ≠ id) else st.order k

theorem delete_stored (hs : s.AllStamped st) (hn : AllNamed st) (hnum : st.Numbered)
    (ht : s.TellsApart st (.delete kind id clock)) (h : (st.get? kind id).isSome = true) :
    ∃ st', (s.delete kind id clock).task.run st = (.ok (), st') ∧ s.Deleted kind id st st' := by
  rcases s.delete_run kind id clock st with ⟨e, hd, -⟩ | ⟨start, hd, hrun⟩
  · simp [Store.delete, h] at hd
  have hget := Store.get?_delete hd
  obtain ⟨st', hleave, hlast⟩ := leaveGroups_rule (P := s.Parting id start) id clock 0
    (fun g rest st h hwhy => h.skip hwhy)
    (fun g rest st i left now h hi hleft => h.write hi hleft now) (parting_of_delete hs ht hd)
  rw [hleave] at hrun
  have hok : s.Succeeds st (.delete kind id clock) = true := by
    rw [Succeeds, hrun]
    rfl
  have horder := (perform_order hs hnum (.delete kind id clock)).2
  have hperform : s.perform st (.delete kind id clock) = st' := congrArg Prod.snd hrun
  have hlisted : ∀ i g, st.get? .group i = some g → MembersListed g.root :=
    fun i g hg => (hn.each _ _ _ hg rfl).listed
  refine ⟨st', hrun, ?_, fun i g hg hin hne => ?_, fun k i hout hne => ?_, fun k => ?_⟩
  · rcases hlast.stored kind id with ⟨hsame, -⟩ | ⟨g, left, now, -, hg, -⟩
    · rw [hsame, hget, if_pos ⟨rfl, rfl⟩]
    · rw [hget, if_pos ⟨rfl, rfl⟩] at hg
      cases hg
  · have hstart : start.get? .group i = some g := by rw [hget, if_neg hne, hg]
    obtain ⟨left, hleft⟩ := (exists_withoutMember?_iff (hlisted i g hg)).mpr hin
    rcases hlast.stored .group i with ⟨hsame, hto⟩ | ⟨g', left', now, -, hg', hleft', hst⟩
    · -- no group is left to visit, so that it would not have the member
      rcases hto g rfl (hsame.trans hstart) with hnone | hmem
      · rw [hleft] at hnone
        cases hnone
      · cases hmem
    · rw [hstart] at hg'
      cases hg'
      obtain ⟨held, hmeta⟩ := (hs.each _ _ _ hg).metadata
      exact ⟨_, hst, leftBy_restamped (hn.each _ _ _ hg rfl) hmeta hleft' now⟩
  · have hstart : start.get? k i = st.get? k i := by rw [hget, if_neg hne]
    rcases hlast.stored k i with ⟨hsame, -⟩ | ⟨g, left, now, rfl, hg, hleft, -⟩
    · exact hsame.trans hstart
    · rw [hstart] at hg
      exact absurd ((exists_withoutMember?_iff (hlisted i g hg)).mp ⟨left, hleft⟩)
        (hout g rfl hg)
  · rw [← hperform, horder, hok, if_pos rfl, Action.reordered]
    simp only [eq_comm]

/-- After changes from the empty store on, the deletion of what is not stored is refused and changes
nothing. Any other takes out the resource and its memberships. -/
theorem performAll_deleted (s : Service) (actions : List Action) (kind : Kind) (id : String)
    (clock : Nat → Instant) :
    ((s.performAll .empty actions).get? kind id = none →
      (s.delete kind id clock).task.run (s.performAll .empty actions) =
        (.error (.notFound kind id), s.performAll .empty actions)) ∧
    (((s.performAll .empty actions).get? kind id).isSome = true →
      s.TellsApart (s.performAll .empty actions) (.delete kind id clock) →
      ∃ st', (s.delete kind id clock).task.run (s.performAll .empty actions) = (.ok (), st') ∧
        s.Deleted kind id (s.performAll .empty actions) st') := by
  have hnumbered :=
    (performAll_order_of (s := s) (Store.all_empty _) Store.numbered_empty actions).1
  exact ⟨delete_missing, fun hstored ht => delete_stored (performAll_stamped (Store.all_empty _)
    actions) (performAll_named s actions) hnumbered ht hstored⟩

theorem performAll_deleted_guild :
    spelledService.TellsApart (spelledService.performAll .empty guildActions)
        (.delete .user "u1" fun _ => default) ∧
      ((spelledService.performAll .empty guildActions).get? .user "u1").isSome = true ∧
      ∃ st', (spelledService.delete .user "u1" fun _ => default).task.run
          (spelledService.performAll .empty guildActions) = (.ok (), st') ∧
        spelledService.Deleted .user "u1" (spelledService.performAll .empty guildActions) st' := by
  have htold : spelledService.TellsApart (spelledService.performAll .empty guildActions)
      (.delete .user "u1" fun _ => default) := by
    rw [tellsApart_delete_iff, performAll_list]
    decide +kernel
  have hstored :
      ((spelledService.performAll .empty guildActions).get? .user "u1").isSome = true := by
    decide +kernel
  exact ⟨htold, hstored, (performAll_deleted spelledService guildActions _ _ _).2 hstored htold⟩

end Service

end Roster
