import Roster.Proofs.Members.Order
import Roster.Proofs.Service.Records
import Roster.Proofs.Service.UserNames

/-! The same replacement made twice. The second one finds the resource as the first has left it. It
changes nothing, unless the resource is a group that gives up its name and is its own member: the
first replacement then names the member by the old name, and the second one by the new name. -/

namespace Roster

namespace Service

variable {s : Service} {st st' : Store} {kind : Kind} {id baseUrl : String} {now : Instant}
  {v w entry existing resource : Json} {done entries items : List Json}

/-! ### The name of a member -/

/-- What a resource is called when it is a member. -/
def callName? (resource : Json) : Option Json :=
  (resource.member? "displayName").orElse fun _ => resource.member? "userName"

/-- The member of a group that names the group itself. -/
def selfMember? (id : String) (group : Json) : Option Json :=
  ((group.get? "members").bind Json.items?).bind fun entries =>
    entries.find? fun m => memberId? m == some id

/-- A member with all filled in but its name. -/
def unnamedMember (baseUrl : String) (entry : Json) (id : String) (kind : Kind) : Members Json :=
  putNew (putNew (Members.insert ((entry.members?).getD []) "value" (.str id)) "type"
    (.str kind.name)) "$ref" (.str (location baseUrl kind id))

theorem completeMember_eq (baseUrl : String) (entry : Json) (id : String) (kind : Kind)
    (resource : Json) :
    completeMember baseUrl entry id kind resource =
      match callName? resource with
      | some display => .obj (putNew (unnamedMember baseUrl entry id kind) "display" display)
      | none => .obj (unnamedMember baseUrl entry id kind) := rfl

theorem get?_putNew_of_ne {ms : Members Json} {key other : String} (x : Json) (h : other ≠ key) :
    (putNew ms key x).get? other = ms.get? other := by
  unfold putNew
  split_ifs
  · rfl
  · exact Members.get?_insert_of_ne ms x h

theorem get?_putNew_self (ms : Members Json) (key : String) (x : Json) :
    (putNew ms key x).get? key = (ms.get? key).or (some x) := by
  unfold putNew
  split_ifs with hs
  · obtain ⟨y, hy⟩ := Option.isSome_iff_exists.mp hs
    simp [hy]
  · have hnone : ms.get? key = none := by simpa using hs
    rw [Members.get?_insert_self, hnone]
    rfl

theorem unnamedMember_display (baseUrl : String) (entry : Json) (id : String) (kind : Kind) :
    (unnamedMember baseUrl entry id kind).get? "display" = entry.get? "display" := by
  unfold unnamedMember
  rw [get?_putNew_of_ne _ (by decide), get?_putNew_of_ne _ (by decide),
    Members.get?_insert_of_ne _ _ (by decide)]
  cases entry <;> rfl

/-- A member is displayed by the name that it gives, or else by that of the resource. -/
theorem completeMember_display (baseUrl : String) (entry : Json) (id : String) (kind : Kind)
    (resource : Json) :
    (completeMember baseUrl entry id kind resource).get? "display" =
      (entry.get? "display").or (callName? resource) := by
  have hgiven := unnamedMember_display baseUrl entry id kind
  rw [completeMember_eq]
  cases callName? resource with
  | some display =>
    change Members.get? (putNew _ "display" display) "display" = _
    rw [get?_putNew_self, hgiven]
  | none => exact hgiven.trans (Option.or_none).symm

/-- Resources that a member is displayed by alike complete it alike. -/
theorem completeMember_congr
    (h : entry.get? "display" = none → callName? v = callName? w) (kind : Kind) :
    completeMember baseUrl entry id kind v = completeMember baseUrl entry id kind w := by
  cases hdisplay : entry.get? "display" with
  | none => rw [completeMember_eq, completeMember_eq, h hdisplay]
  | some x =>
    -- a name that is given stays, whatever the resource is called
    have hheld : ((unnamedMember baseUrl entry id kind).get? "display").isSome = true := by
      rw [unnamedMember_display, hdisplay]
      rfl
    have hgiven (u : Json) : completeMember baseUrl entry id kind u =
        .obj (unnamedMember baseUrl entry id kind) := by
      rw [completeMember_eq]
      split
      · rw [putNew, if_pos hheld]
      · rfl
    rw [hgiven, hgiven]

/-! ### Members resolved before and after a group is put -/

/-- What a member names: a user, or else a group. -/
theorem findMember_eq (other : String) (st : Store) :
    (findMember other).run st =
      (match st.get? .user other, st.get? .group other with
      | some user, _ => .ok (.user, user)
      | none, some group => .ok (.group, group)
      | none, none => .error (.invalidValue (.unknownMember other)), st) := by
  unfold findMember
  rw [Task.run_bind, Task.run_get]
  cases hu : st.get? .user other with
  | some user => rfl
  | none =>
    simp only [Task.run_bind, Task.run_get]
    cases hg : st.get? .group other <;> rfl

/-- Members are found as before when a group is put in the place of another one, but for the group
itself. -/
theorem findMember_put {found : Kind × Json} {other : String}
    (hget : ∀ k i, st'.get? k i = if k = .group ∧ i = id then some v else st.get? k i)
    (h : (findMember other).run st = (.ok found, st)) :
    (findMember other).run st' =
      (.ok (if other = id ∧ st.get? .user id = none then (.group, v) else found), st') := by
  have huser : st'.get? .user other = st.get? .user other := by simp [hget]
  have hgroup : st'.get? .group other = if other = id then some v else st.get? .group other := by
    simp [hget]
  rw [findMember_eq, huser, hgroup]
  rw [findMember_eq] at h
  cases hu : st.get? .user other with
  | some user =>
    rw [hu] at h
    have hother : ¬(other = id ∧ st.get? .user id = none) := by
      rintro ⟨rfl, hnone⟩
      simp [hu] at hnone
    rw [if_neg hother]
    exact congrArg (·, st') (congrArg Prod.fst h)
  | none =>
    rw [hu] at h
    by_cases hid : other = id
    · subst hid
      simp [hu]
    · simp only [hid, false_and, if_false]
      cases hg : st.get? .group other with
      | some group =>
        rw [hg] at h
        exact congrArg (·, st') (congrArg Prod.fst h)
      | none =>
        rw [hg] at h
        cases h

/-- The first entry that names a resource is the one that is completed for it. -/
theorem resolveEntries_find? {found : Kind × Json}
    (hfound : (findMember id).run st = (.ok found, st))
    (h : (resolveEntries baseUrl done entries).run st = (.ok items, st')) :
    items.find? (fun m => memberId? m == some id) =
      (done.find? fun m => memberId? m == some id).or
        ((entries.find? fun m => memberId? m == some id).map fun entry =>
          completeMember baseUrl entry id found.1 found.2) := by
  induction entries generalizing done with
  | nil =>
    obtain ⟨rfl, -⟩ : done = items ∧ st = st' := by simpa [resolveEntries] using h
    simp
  | cons entry rest ih =>
    unfold resolveEntries at h
    split at h
    · simp at h
    · rename_i other hother
      split_ifs at h with hany
      · rw [ih h]
        by_cases hid : other = id
        · -- an entry in front stands for this one
          subst hid
          have hsome : (done.find? fun m => memberId? m == some other).isSome = true := by
            simpa using hany
          obtain ⟨m, hm⟩ := Option.isSome_iff_exists.mp hsome
          simp [hm]
        · simp [hother, hid]
      · obtain ⟨⟨k, r⟩, s₁, hmember, hrest⟩ := Task.bind_run_ok.mp h
        obtain rfl := (findMember_reads other).run_ok hmember
        have hvalue := memberId?_of_get? (completeMember_value baseUrl entry other k r)
        rw [ih hrest, List.find?_append]
        by_cases hid : other = id
        · subst hid
          obtain rfl : (k, r) = found := by
            simpa using congrArg Prod.fst (hmember.symm.trans hfound)
          have hnone : (done.find? fun m => memberId? m == some other) = none := by
            simpa using hany
          simp [hvalue, hother, hnone]
        · simp [hvalue, hother, hid]

/-- The first entry of a group that no user stands for is completed for what is stored of it. -/
theorem resolveEntries_find?_group {entry u : Json} (hnone : st.get? .user id = none)
    (hu : st.get? .group id = some u)
    (hentry : (entries.find? fun m => memberId? m == some id) = some entry)
    (h : (resolveEntries baseUrl [] entries).run st = (.ok items, st)) :
    items.find? (fun m => memberId? m == some id) =
      some (completeMember baseUrl entry id .group u) := by
  have hfound : (findMember id).run st = (.ok (.group, u), st) := by
    rw [findMember_eq, hnone, hu]
  rw [resolveEntries_find? hfound h, hentry]
  rfl

theorem any_memberId?_congr {redone : List Json}
    (hd : redone.map memberId? = done.map memberId?) (other : String) :
    (redone.any fun m => memberId? m == some other) =
      done.any fun m => memberId? m == some other := by
  simpa [List.any_map, Function.comp_def] using
    congrArg (fun ids : List (Option String) => ids.any (· == some other)) hd

/-- Entries are resolved again when a group is put in the place of another one. They come to the
same, if the first one that names the group does. -/
theorem resolveEntries_put {redone : List Json}
    (hget : ∀ k i, st'.get? k i = if k = .group ∧ i = id then some v else st.get? k i)
    (he : st.get? .group id = some existing) (hd : redone.map memberId? = done.map memberId?)
    (h : (resolveEntries baseUrl done entries).run st = (.ok items, st)) :
    ∃ again, (resolveEntries baseUrl redone entries).run st' = (.ok again, st') ∧
      (redone = done →
        (st.get? .user id = none → (done.any fun m => memberId? m == some id) = false →
          ∀ entry, (entries.find? fun m => memberId? m == some id) = some entry →
            entry.get? "display" = none → callName? v = callName? existing) →
        again = items) := by
  -- what is done differs in the names of members at most
  induction entries generalizing done redone with
  | nil =>
    obtain ⟨rfl, -⟩ : done = items ∧ st = st := by simpa [resolveEntries] using h
    exact ⟨redone, rfl, fun heq _ => heq⟩
  | cons entry rest ih =>
    unfold resolveEntries at h ⊢
    split at h
    · simp at h
    · rename_i other hother
      rw [any_memberId?_congr hd]
      split_ifs at h ⊢ with hany
      · obtain ⟨again, hrun, hsame⟩ := ih hd h
        refine ⟨again, hrun, fun heq hcall => hsame heq fun hnone hfree e hfirst => ?_⟩
        refine hcall hnone hfree e ?_
        have hne : other ≠ id := by
          rintro rfl
          rw [hfree] at hany
          cases hany
        simpa [hother, hne] using hfirst
      · obtain ⟨⟨k, r⟩, s₁, hmember, hrest⟩ := Task.bind_run_ok.mp h
        obtain rfl : st = s₁ := ((findMember_reads other).run_ok hmember).symm
        have hvalue (k : Kind) (r : Json) := memberId?_of_get?
          (completeMember_value baseUrl entry other k r)
        rw [Task.run_bind, findMember_put hget hmember]
        by_cases hself : other = id ∧ st.get? .user id = none
        · rw [if_pos hself]
          obtain ⟨rfl, hnone⟩ := hself
          obtain ⟨rfl, rfl⟩ : Kind.group = k ∧ existing = r := by
            simpa [findMember_eq, hnone, he] using congrArg Prod.fst hmember
          obtain ⟨again, hrun, hsame⟩ := @ih _
            (redone ++ [completeMember baseUrl entry other .group v]) (by simp [hd, hvalue]) hrest
          refine ⟨again, hrun, fun heq hcall => hsame ?_ fun _ hfree => ?_⟩
          · rw [heq,
              completeMember_congr (hcall hnone (by simpa using hany) entry (by simp [hother]))]
          · simp [hvalue] at hfree
        · rw [if_neg hself]
          obtain ⟨again, hrun, hsame⟩ := @ih _
            (redone ++ [completeMember baseUrl entry other k r]) (by simp [hd]) hrest
          refine ⟨again, hrun, fun heq hcall => hsame (by rw [heq]) fun hnone hfree e hfirst => ?_⟩
          have hne : other ≠ id := fun hid => hself ⟨hid, hnone⟩
          simp only [List.any_append, Bool.or_eq_false_iff] at hfree
          exact hcall hnone hfree.1 e (by simpa [hother, hne] using hfirst)

/-! ### Groups that are their own members -/

/-- A group is to be a member of itself under no name of its own, and to be called otherwise than
it is. A user of its identifier would be the member. -/
structure RenamesMember (st : Store) (id : String) (existing built : Json) : Prop where
  noUser : st.get? .user id = none
  unnamed : ∃ entry, selfMember? id built = some entry ∧ entry.get? "display" = none
  renamed : callName? built ≠ callName? existing

/-- The replacement of a group by a body renames the group as a member of itself. -/
def RenamesItself (s : Service) (st : Store) (kind : Kind) (id : String) (body : Json) : Prop :=
  kind = .group ∧ ∃ existing built, st.get? .group id = some existing ∧
    s.registry.build .group body = .ok built ∧ RenamesMember st id existing built

/-- The members of a group are resolved again when it is put in its place. They come to the same,
unless it is renamed as a member of itself. -/
theorem resolveMembers_put {resolved : Json}
    (hget : ∀ k i, st'.get? k i = if k = .group ∧ i = id then some v else st.get? k i)
    (he : st.get? .group id = some existing) (hv : callName? v = callName? w)
    (h : (resolveMembers .group w baseUrl).run st = (.ok resolved, st)) :
    ∃ again, (resolveMembers .group w baseUrl).run st' = (.ok again, st') ∧
      (¬ RenamesMember st id existing w → again = resolved) ∧
      (RenamesMember st id existing w → again.get? "members" ≠ resolved.get? "members") := by
  unfold resolveMembers at h ⊢
  split at h
  · rename_i entries _ hentries
    have ho := Json.isObject_of_get? hentries
    have hself : selfMember? id w = entries.find? fun m => memberId? m == some id := by
      simp [selfMember?, hentries, Json.items?]
    obtain ⟨items, s₁, hitems, hput⟩ := Task.bind_run_ok.mp h
    obtain ⟨rfl, rfl⟩ : w.put "members" (.arr items) = resolved ∧ s₁ = st := by simpa using hput
    obtain ⟨redone, hredone, hsame⟩ := resolveEntries_put hget he rfl hitems
    refine ⟨w.put "members" (.arr redone), ?_, fun hnot => ?_, fun hr => ?_⟩
    · simp only [Task.run_bind, hredone]
      rfl
    · rw [hsame rfl fun hnone _ entry hfirst hunnamed => ?_]
      by_contra hne
      exact hnot ⟨hnone, ⟨entry, hself.trans hfirst, hunnamed⟩, fun heq => hne (hv.trans heq)⟩
    · -- the entry of the group is displayed by the new name, and was by the old one
      obtain ⟨entry, hentry, hunnamed⟩ := hr.unnamed
      rw [hself] at hentry
      have hnone : st'.get? .user id = none := by simp [hget, hr.noUser]
      have hgroup : st'.get? .group id = some v := by simp [hget]
      have hafter := resolveEntries_find?_group hnone hgroup hentry hredone
      have hbefore := resolveEntries_find?_group hr.noUser he hentry hitems
      rw [Json.get?_put_self ho, Json.get?_put_self ho]
      intro heq
      rw [Json.arr.inj (Option.some.inj heq), hbefore] at hafter
      have hdisplay := congrArg (fun m => Json.get? m "display") (Option.some.inj hafter)
      simp only [completeMember_display, hunnamed, Option.none_or] at hdisplay
      exact hr.renamed (hv.symm.trans hdisplay.symm)
  · rename_i hno
    obtain ⟨rfl, -⟩ : w = resolved ∧ st = st := by simpa using h
    refine ⟨w, rfl, fun _ => rfl, fun hr => ?_⟩
    obtain ⟨entry, hentry, -⟩ := hr.unnamed
    obtain ⟨items, hitems, -⟩ := Option.bind_eq_some_iff.mp hentry
    obtain ⟨x, hx, hlist⟩ := Option.bind_eq_some_iff.mp hitems
    cases x with
    | arr entries => exact absurd hx (hno entries rfl)
    | _ => cases hlist

/-! ### The store between two replacements -/

/-- What a resource is called does not depend on members of other names. -/
theorem callName?_put {key : String} {x : Json} (hd : sameName "displayName" key = false)
    (hu : sameName "userName" key = false) : callName? (v.put key x) = callName? v := by
  cases v with
  | obj ms =>
    have hdisplay : Members.find? (Members.insert ms key x) "displayName" = _ :=
      Members.find?_insert_of_not_same x hd
    have huser : Members.find? (Members.insert ms key x) "userName" = _ :=
      Members.find?_insert_of_not_same x hu
    simp [callName?, Json.member?, Json.members?, Json.put, hdisplay, huser]
  | _ => rfl

theorem callName?_without_meta : callName? (v.without "meta") = callName? v := by
  cases v with
  | obj ms =>
    have hdisplay : Members.find? (Members.erase ms "meta") "displayName" = _ :=
      Members.find?_erase_of_not_same (by decide)
    have huser : Members.find? (Members.erase ms "meta") "userName" = _ :=
      Members.find?_erase_of_not_same (by decide)
    simp [callName?, Json.member?, Json.members?, Json.without, hdisplay, huser]
  | _ => rfl

theorem callName?_of_content (h : v.without "meta" = w.without "meta") :
    callName? v = callName? w := by
  rw [← callName?_without_meta, h, callName?_without_meta]

/-- Neither resolved members nor what the server assigns change what a resource is called. -/
theorem callName?_keepAssigned (existing : Json) :
    callName? (keepAssigned existing v) = callName? v := by
  have hcalled : Unassigned fun w => callName? w = callName? v :=
    ⟨fun _ hw => (callName?_put (by decide) (by decide)).trans hw,
      fun _ hw => (callName?_put (by decide) (by decide)).trans hw⟩
  exact hcalled.keepAssigned existing rfl

theorem callName?_resolved (h : (resolveMembers kind v baseUrl).run st = (.ok w, st')) :
    callName? w = callName? v := by
  rcases resolveMembers_eq h with rfl | ⟨items, rfl⟩
  · rfl
  · exact callName?_put (by decide) (by decide)

/-- What the server takes over, metadata aside, is the identifier. -/
theorem keepAssigned_content {x y : Json} (hid : existing.get? "id" = some x)
    (hmeta : existing.get? "meta" = some y) :
    (keepAssigned existing v).without "meta" = (v.put "id" x).without "meta" := by
  simp only [keepAssigned, List.foldl_cons, List.foldl_nil, hid, hmeta, Json.without_put_self]

/-- A name that no other user has is still free when the user is put. -/
theorem checkUnique_put (hs : ∀ k, Members.Sorted (st.entries k))
    (hu : st.update kind id v = .ok st')
    (h : (checkUnique kind w (some id)).run st = (.ok (), st)) :
    (checkUnique kind w (some id)).run st' = (.ok (), st') := by
  cases kind with
  | group => rfl
  | user =>
    cases hname : (w.member? "userName").bind Json.string? with
    | none => simp [checkUnique, hname]
    | some name =>
      simp only [checkUnique, hname, Task.run_bind, Task.run_find] at h ⊢
      have hfree : st.find? ⟨.user, "userName", name, false, some id⟩ = none := by
        cases hf : st.find? ⟨.user, "userName", name, false, some id⟩ with
        | none => rfl
        | some u => simp [hf] at h
      obtain ⟨-, ⟨number, hput⟩, -⟩ := Store.update_eq_ok hu
      -- the search passes over the user that is put, and over the others as before
      have hstill : st'.find? ⟨.user, "userName", name, false, some id⟩ = none := by
        refine List.findSome?_eq_none_iff.mpr fun m hm => ?_
        rw [hput] at hm
        rcases (Members.mem_insert (hs .user)).mp hm with rfl | ⟨hm, -⟩
        · simp [Probe.finds]
        · exact List.findSome?_eq_none_iff.mp hfree m hm
      rw [hstill]
      rfl

/-! ### Runs of replacements -/

/-- The resource of a body is resolved again in the store that its replacement leaves. It comes to
the same, unless it is renamed as a member of itself. -/
theorem resolved_again {body built resolved : Json} (hb : s.registry.build kind body = .ok built)
    (he : st.get? kind id = some existing)
    (hres : (resolveMembers kind built baseUrl).run st = (.ok resolved, st))
    (hu : st.update kind id (s.restamped (keepAssigned existing resolved) now) = .ok st') :
    ∃ redone, (resolveMembers kind built baseUrl).run st' = (.ok redone, st') ∧
      (¬ s.RenamesItself st kind id body → redone = resolved) ∧
      (s.RenamesItself st kind id body → redone.get? "members" ≠ resolved.get? "members") := by
  cases kind with
  | user =>
    refine ⟨resolved, ?_, fun _ => rfl, fun hr => absurd hr.1 (by decide)⟩
    rw [resolveMembers_user hres]
    rfl
  | group =>
    have hcalled : callName? (s.restamped (keepAssigned existing resolved) now) =
        callName? built := by
      rw [callName?_of_content (restamped_without_meta now), callName?_keepAssigned,
        callName?_resolved hres]
    obtain ⟨redone, hredone, hsame, hother⟩ :=
      resolveMembers_put (Store.get?_update hu) he hcalled hres
    refine ⟨redone, hredone, fun hnot => hsame fun hr => ?_, fun hr => hother ?_⟩
    · exact hnot ⟨rfl, existing, built, he, hb, hr⟩
    · obtain ⟨-, v, w, hv, hw, hr⟩ := hr
      cases he.symm.trans hv
      cases hb.symm.trans hw
      exact hr

/-- A replacement by another content is told from the resource by its version. -/
theorem stated_ne_of_tells {body built resolved : Json} (hs : s.AllStamped st)
    (ht : s.TellsRevision st (.replace kind id body baseUrl now))
    (hb : s.registry.build kind body = .ok built) (he : st.get? kind id = some existing)
    (hres : (resolveMembers kind built baseUrl).run st = (.ok resolved, st))
    (hne : (keepAssigned existing resolved).without "meta" ≠ existing.without "meta") :
    statedVersion? existing ≠ some (s.versionOf (keepAssigned existing resolved)) := by
  intro hv
  rw [(hs.each _ _ _ he).stated] at hv
  have hrev : s.revision? st (.replace kind id body baseUrl now) =
      some (existing, keepAssigned existing resolved) := by
    simp [revision?, he, hb, hres, Except.toOption]
  exact ht _ hrev hne (Option.some.inj hv).symm

/-- A group that is renamed as a member of itself is replaced by another content. -/
theorem RenamesItself.content_ne {body built resolved : Json}
    (h : s.RenamesItself st kind id body) (hb : s.registry.build kind body = .ok built)
    (he : st.get? kind id = some existing)
    (hres : (resolveMembers kind built baseUrl).run st = (.ok resolved, st)) :
    (keepAssigned existing resolved).without "meta" ≠ existing.without "meta" := by
  obtain ⟨rfl, v, w, hv, hw, hrenames⟩ := h
  cases he.symm.trans hv
  cases hb.symm.trans hw
  intro hsame
  have hcalled := callName?_of_content hsame
  rw [callName?_keepAssigned, callName?_resolved hres] at hcalled
  exact hrenames.renamed hcalled

/-- What a replacement would put in the place of what it has put there: the identifier is taken
over again. -/
theorem restamped_again {resolved : Json} (redone : Json) (now : Instant)
    (hx : s.Stamped id existing) (ho : resolved.isObject = true) :
    s.Stamped id (s.restamped (keepAssigned existing resolved) now) ∧
      (s.restamped (keepAssigned existing resolved) now).without "meta" =
        (resolved.put "id" (.str id)).without "meta" ∧
      (keepAssigned (s.restamped (keepAssigned existing resolved) now) redone).without "meta" =
        (redone.put "id" (.str id)).without "meta" := by
  obtain ⟨held, hmeta⟩ := hx.metadata
  have hstamped := restamped_stamped (s := s) (get?_keepAssigned (.inl rfl) ho hx.identifier)
    (get?_keepAssigned (.inr rfl) ho hmeta) now
  obtain ⟨held', hmeta'⟩ := hstamped.metadata
  exact ⟨hstamped, (restamped_without_meta now).trans (keepAssigned_content hx.identifier hmeta),
    keepAssigned_content hstamped.identifier hmeta'⟩

/-- Resources with different members are of different contents. -/
theorem content_ne_of_members {x y resolved redone z : Json}
    (hx : x.without "meta" = (resolved.put "id" z).without "meta")
    (hy : y.without "meta" = (redone.put "id" z).without "meta")
    (h : redone.get? "members" ≠ resolved.get? "members") :
    y.without "meta" ≠ x.without "meta" := by
  rw [hx, hy]
  intro heq
  have hmembers := congrArg (fun v => Json.get? v "members") heq
  rw [Json.get?_without_of_ne (by decide), Json.get?_without_of_ne (by decide),
    Json.get?_put_of_ne (by decide), Json.get?_put_of_ne (by decide)] at hmembers
  exact h hmembers

/-- Where nothing has been written, the same replacement writes nothing. -/
theorem replace_again_skipped {body built resolved shown : Json}
    (hb : s.registry.build kind body = .ok built) (he : st.get? kind id = some existing)
    (hunique : (checkUnique kind built (some id)).run st = (.ok (), st))
    (hres : (resolveMembers kind built baseUrl).run st = (.ok resolved, st))
    (hv : statedVersion? existing = some (s.versionOf (keepAssigned existing resolved)))
    (hshow : (decorate kind existing baseUrl).run st = (.ok shown, st)) :
    (s.replace kind id body baseUrl now).task.run st = (.ok shown, st) := by
  refine replace_run_ok.mpr
    ⟨built, existing, resolved, existing, hb, he, hunique, hres, ?_, hshow⟩
  rcases s.persist_run kind id existing (keepAssigned existing resolved) now st with
    ⟨-, hrun⟩ | ⟨hne, -⟩
  · exact hrun
  · exact absurd hv hne

/-- A group is shown as it is. -/
theorem decorate_group {shown : Json}
    (h : (decorate .group v baseUrl).run st = (.ok shown, st')) : shown = v := by
  obtain ⟨rfl, -⟩ : v = shown ∧ st = st' := by simpa [decorate] using h
  rfl

/-- Where the resource has to be written, it is. -/
theorem replace_again_written {body built resolved : Json}
    (hb : s.registry.build kind body = .ok built) (he : st.get? kind id = some existing)
    (hunique : (checkUnique kind built (some id)).run st = (.ok (), st))
    (hres : (resolveMembers kind built baseUrl).run st = (.ok resolved, st))
    (hv : statedVersion? existing ≠ some (s.versionOf (keepAssigned existing resolved)))
    (now : Instant) :
    ∃ shown left, (s.replace kind id body baseUrl now).task.run st = (.ok shown, left) ∧
      st.update kind id (s.restamped (keepAssigned existing resolved) now) = .ok left ∧
      (decorate kind (s.restamped (keepAssigned existing resolved) now) baseUrl).run left =
        (.ok shown, left) := by
  have hstored : (st.get? kind id).isSome = true := by
    rw [he]
    rfl
  obtain ⟨left, hu⟩ := st.exists_update hstored (s.restamped (keepAssigned existing resolved) now)
  obtain ⟨shown, left', hshow⟩ := decorate_sure kind
    (s.restamped (keepAssigned existing resolved) now) baseUrl left
  obtain rfl : left = left' := ((decorate_reads _ _ _).run_ok hshow).symm
  refine ⟨shown, left, replace_run_ok.mpr
    ⟨built, existing, resolved, _, hb, he, hunique, hres, ?_, hshow⟩, hu, hshow⟩
  rcases s.persist_run kind id existing (keepAssigned existing resolved) now st with
    ⟨heq, -⟩ | ⟨-, hrun⟩
  · exact absurd heq hv
  · rw [hrun, hu]

/-- A replacement by other contents than are stored writes them, as far as versions tell them
apart. -/
theorem replace_again_differs {body built resolved shown : Json} (hs : s.AllStamped st)
    (hb : s.registry.build kind body = .ok built) (he : st.get? kind id = some existing)
    (hunique : (checkUnique kind built (some id)).run st = (.ok (), st))
    (hres : (resolveMembers kind built baseUrl).run st = (.ok resolved, st))
    (hne : (keepAssigned existing resolved).without "meta" ≠ existing.without "meta")
    (hshow : (decorate kind existing baseUrl).run st = (.ok shown, st)) (hgroup : kind = .group) :
    ∃ again left, (s.replace kind id body baseUrl now).task.run st = (.ok again, left) ∧
      (s.TellsRevision st (.replace kind id body baseUrl now) → again ≠ shown ∧ left ≠ st) := by
  by_cases hversion :
      statedVersion? existing = some (s.versionOf (keepAssigned existing resolved))
  · exact ⟨shown, st, replace_again_skipped hb he hunique hres hversion hshow,
      fun ht => absurd hversion (stated_ne_of_tells hs ht hb he hres hne)⟩
  · obtain ⟨again, left, hrun, hleft, hagain⟩ :=
      replace_again_written hb he hunique hres hversion now
    refine ⟨again, left, hrun, fun _ => ⟨?_, ?_⟩⟩
    · -- what is shown of a group is what is stored
      subst hgroup
      obtain rfl := decorate_group hshow
      obtain rfl := decorate_group hagain
      intro heq
      exact hne ((restamped_without_meta now).symm.trans (congrArg (·.without "meta") heq))
    · rintro rfl
      rw [Store.get?_update hleft, if_pos ⟨rfl, rfl⟩] at he
      exact hne ((restamped_without_meta now).symm.trans
        (congrArg (·.without "meta") (Option.some.inj he)))

theorem replace_again_of {body shown : Json} (hs : s.AllStamped st)
    (h : (s.replace kind id body baseUrl now).task.run st = (.ok shown, st')) (now' : Instant) :
    ∃ again left, (s.replace kind id body baseUrl now').task.run st' = (.ok again, left) ∧
      (¬ s.RenamesItself st kind id body → again = shown ∧ left = st') ∧
      (s.RenamesItself st kind id body →
        s.TellsRevision st (.replace kind id body baseUrl now) →
        s.TellsRevision st' (.replace kind id body baseUrl now') →
        again ≠ shown ∧ left ≠ st') := by
  obtain ⟨built, existing, resolved, stored, hb, he, hunique, hres, hpersist, hshow⟩ :=
    replace_run_ok.mp h
  have hx := hs.each _ _ _ he
  rcases s.persist_run kind id existing (keepAssigned existing resolved) now st with
    ⟨hv, hskip⟩ | ⟨-, hwrite⟩
  · -- nothing has been written, so that the store is as it was
    obtain ⟨rfl, rfl⟩ : existing = stored ∧ st = st' := by simpa [hskip] using hpersist
    refine ⟨shown, st, replace_again_skipped hb he hunique hres hv hshow, fun _ => ⟨rfl, rfl⟩,
      fun hr ht _ => absurd hv ?_⟩
    exact stated_ne_of_tells hs ht hb he hres (hr.content_ne hb he hres)
  · cases hu : st.update kind id (s.restamped (keepAssigned existing resolved) now) with
    | error e =>
      rw [hwrite, hu] at hpersist
      cases hpersist
    | ok st₁ =>
      obtain ⟨rfl, rfl⟩ :
          s.restamped (keepAssigned existing resolved) now = stored ∧ st₁ = st' := by
        simpa [hwrite, hu] using hpersist
      have ho := isObject_resolved (Registry.build_isObject hb) hres
      obtain ⟨redone, hredone, hsame, hother⟩ := resolved_again hb he hres hu
      obtain ⟨hstamped, hfirst, hsecond⟩ := restamped_again redone now hx ho
      have hv : st₁.get? kind id = some (s.restamped (keepAssigned existing resolved) now) := by
        rw [Store.get?_update hu, if_pos ⟨rfl, rfl⟩]
      have hunique₁ := checkUnique_put hs.sorted hu hunique
      have hs₁ := hs.update hu hstamped
      by_cases hr : s.RenamesItself st kind id body
      · have hne := content_ne_of_members hfirst hsecond (hother hr)
        obtain ⟨again, left, hrun, hdiffers⟩ :=
          replace_again_differs hs₁ hb hv hunique₁ hredone hne hshow hr.1
        exact ⟨again, left, hrun, fun hnot => absurd hr hnot, fun _ _ ht' => hdiffers ht'⟩
      · refine ⟨shown, st₁, replace_again_skipped hb hv hunique₁ hredone ?_ hshow,
          fun _ => ⟨rfl, rfl⟩, fun h => absurd h hr⟩
        rw [hstamped.stated, versionOf, versionOf, hfirst, hsecond, hsame hr]

/-- In every store that changes lead to from the empty one, a replacement that succeeds succeeds
again. It then gives the same answer and leaves the store as it is, unless it renames a group as a
member of itself; in that case it gives another answer and leaves another store, as far as versions
tell contents apart. -/
theorem replace_again (s : Service) (actions : List Action) {body shown : Json}
    (h : (s.replace kind id body baseUrl now).task.run (s.performAll .empty actions) =
      (.ok shown, st)) (now' : Instant) :
    ∃ again left, (s.replace kind id body baseUrl now').task.run st = (.ok again, left) ∧
      (¬ s.RenamesItself (s.performAll .empty actions) kind id body → again = shown ∧ left = st) ∧
      (s.RenamesItself (s.performAll .empty actions) kind id body →
        s.TellsRevision (s.performAll .empty actions) (.replace kind id body baseUrl now) →
        s.TellsRevision st (.replace kind id body baseUrl now') →
        again ≠ shown ∧ left ≠ st) :=
  replace_again_of (performAll_stamped (Store.all_empty _) actions) h now'

/-- What a replacement that succeeds shows. -/
theorem exists_shown {body : Json}
    (h : s.Succeeds st (.replace kind id body baseUrl now) = true) :
    ∃ shown, (s.replace kind id body baseUrl now).task.run st =
      (.ok shown, s.perform st (.replace kind id body baseUrl now)) := by
  obtain ⟨shown, hshown⟩ := exists_ok h
  exact ⟨shown, Prod.ext hshown rfl⟩

/-- A group, and another one that has it as a member. -/
def mutualActions : List Action :=
  [ .create .group (.obj [("displayName", .str "Staff"), ("schemas", .arr [.str Urn.group])]) ""
      "g1" default,
    .create .group (.obj [("displayName", .str "Guides"),
      ("members", .arr [.obj [("value", .str "g1")]]), ("schemas", .arr [.str Urn.group])]) "" "g2"
      default ]

/-- A group with a new name and a member. -/
def renamed (member : String) : Json :=
  .obj [("displayName", .str "All staff"), ("members", .arr [.obj [("value", .str member)]]),
    ("schemas", .arr [.str Urn.group])]

theorem replace_again_mutual :
    ∃ shown st again left,
      (spelledService.replace .group "g1" (renamed "g2") "" default).task.run
        (spelledService.performAll .empty mutualActions) = (.ok shown, st) ∧
      ¬ spelledService.RenamesItself (spelledService.performAll .empty mutualActions) .group "g1"
        (renamed "g2") ∧
      (spelledService.replace .group "g1" (renamed "g2") "" default).task.run st =
        (.ok again, left) ∧ again = shown ∧ left = st := by
  have hok : spelledService.Succeeds (spelledService.performAll .empty mutualActions)
      (.replace .group "g1" (renamed "g2") "" default) = true := by decide +kernel
  obtain ⟨shown, hshown⟩ := exists_shown hok
  obtain ⟨again, left, hrun, hsame, -⟩ := replace_again spelledService mutualActions hshown default
  have hother : ((spelledService.registry.build .group (renamed "g2")).toOption.bind
      (selfMember? "g1")) = none := by decide
  have hnot : ¬ spelledService.RenamesItself (spelledService.performAll .empty mutualActions)
      .group "g1" (renamed "g2") := by
    rintro ⟨-, existing, built, -, hb, hr⟩
    obtain ⟨entry, hentry, -⟩ := hr.unnamed
    rw [hb] at hother
    cases hentry.symm.trans hother
  exact ⟨shown, _, again, left, hshown, hnot, hrun, hsame hnot⟩

/-- A group that is renamed and becomes a member of itself is not the same after the second of two
equal replacements as after the first, though the versions tell all contents apart. -/
theorem replace_renames_itself :
    let before := spelledService.performAll .empty (mutualActions.take 1)
    let put : Action := .replace .group "g1" (renamed "g1") "" default
    let once := spelledService.perform before put
    let twice := spelledService.perform once put
    spelledService.Succeeds before put = true ∧
      twice.get? .group "g1" ≠ once.get? .group "g1" := by
  decide +kernel

end Service

end Roster
