import Mathlib.Data.List.Induction
import Roster.Proofs.Json
import Roster.Proofs.Service.Action

/-! What the metadata of stored resources say: the kind, the time and the place of the creation that
has put the resource there, and the version of what it holds now. A change of a resource that comes
to the same content leaves the store as it was, and any other gives the resource a new version. -/

namespace Roster

namespace Service

variable {s : Service} {st st' : Store} {kind : Kind} {id baseUrl key : String} {now : Instant}
  {v w : Json} {actions : List Service.Action}

/-! ### Statements of the metadata -/

/-- What the metadata of a resource state under a name. -/
def stated? (v : Json) (key : String) : Option Json :=
  (v.get? "meta").bind (·.get? key)

theorem stated?_version (h : statedVersion? v = some key) :
    stated? v "version" = some (.str key) := by
  obtain ⟨text, htext, hkey⟩ := Option.bind_eq_some_iff.mp h
  cases text with
  | str t =>
    cases hkey
    exact htext
  | _ => simp [Json.string?] at hkey

theorem stated?_congr (h : w.get? "meta" = v.get? "meta") (key : String) :
    stated? w key = stated? v key := by
  rw [stated?, stated?, h]

theorem stated?_put_meta (ho : v.isObject = true) (m : Members Json) (key : String) :
    stated? (v.put "meta" (.obj m)) key = m.get? key := by
  rw [stated?, Json.get?_put_self ho]
  rfl

/-- The metadata of a resource state its kind, and when and where it has been created. -/
structure Recorded (kind : Kind) (id baseUrl : String) (now : Instant) (v : Json) : Prop where
  resourceType : stated? v "resourceType" = some (.str kind.name)
  created : stated? v "created" = some (.str now.toText)
  location : stated? v "location" = some (.str (location baseUrl kind id))

/-- The metadata of two resources state the same, but for the last change and the version. -/
def SameRecord (v w : Json) : Prop :=
  ∀ key, key ≠ "lastModified" → key ≠ "version" → stated? w key = stated? v key

theorem SameRecord.of_meta (h : w.get? "meta" = v.get? "meta") : SameRecord v w :=
  fun key _ _ => stated?_congr h key

theorem SameRecord.trans {u : Json} (h : SameRecord u v) (h' : SameRecord v w) : SameRecord u w :=
  fun key hm hv => (h' key hm hv).trans (h key hm hv)

theorem Recorded.of_same (h : Recorded kind id baseUrl now v) (hs : SameRecord v w) :
    Recorded kind id baseUrl now w where
  resourceType := (hs _ (by decide) (by decide)).trans h.resourceType
  created := (hs _ (by decide) (by decide)).trans h.created
  location := (hs _ (by decide) (by decide)).trans h.location

/-- Storing a resource anew changes no other statement. -/
theorem sameRecord_restamped {held : Members Json} (hm : v.get? "meta" = some (.obj held))
    (now : Instant) : SameRecord v (s.restamped v now) := by
  intro key hlast hversion
  have ho := Json.isObject_of_get? hm
  rw [restamped, putMeta_eq hm, stated?_put_meta ho, stated?, hm]
  simp only [Members.merge, List.foldl_cons, List.foldl_nil]
  rw [Members.get?_insert_of_ne _ _ hversion, Members.get?_insert_of_ne _ _ hlast]
  rfl

/-- The metadata of a new resource. -/
def firstMeta (kind : Kind) (baseUrl id : String) (now : Instant) : Members Json :=
  Members.ofList [("resourceType", .str kind.name), ("created", .str now.toText),
    ("lastModified", .str now.toText), ("location", .str (location baseUrl kind id))]

theorem stated?_stamp (s : Service) (kind : Kind) (ho : v.isObject = true) (baseUrl id : String)
    (now : Instant) (hkey : key ≠ "version") :
    stated? (s.stamp kind v baseUrl id now) key = (firstMeta kind baseUrl id now).get? key := by
  have hobj : ((v.put "id" (.str id)).put "meta" (.obj (firstMeta kind baseUrl id now))).get?
      "meta" = some (.obj (firstMeta kind baseUrl id now)) :=
    Json.get?_put_self (by simpa using ho)
  have hstamp : s.stamp kind v baseUrl id now =
      putMeta ((v.put "id" (.str id)).put "meta" (.obj (firstMeta kind baseUrl id now)))
        [("version", .str (s.versionOf ((v.put "id" (.str id)).put "meta"
          (.obj (firstMeta kind baseUrl id now)))))] := rfl
  rw [hstamp, putMeta_eq hobj, stated?_put_meta (by simpa using ho)]
  exact Members.get?_insert_of_ne _ _ hkey

/-- A new resource is stamped with its creation. -/
theorem stamp_recorded (s : Service) (kind : Kind) (ho : v.isObject = true) (baseUrl id : String)
    (now : Instant) : Recorded kind id baseUrl now (s.stamp kind v baseUrl id now) := by
  have hget : ∀ key, (firstMeta kind baseUrl id now).get? key =
      if key = "location" then some (.str (location baseUrl kind id))
      else if key = "lastModified" then some (.str now.toText)
      else if key = "created" then some (.str now.toText)
      else if key = "resourceType" then some (.str kind.name) else none := by
    intro key
    simp only [firstMeta, Members.ofList, List.foldl_cons, List.foldl_nil]
    split_ifs with hl hm hc hr
    · rw [hl, Members.get?_insert_self]
    · rw [Members.get?_insert_of_ne _ _ hl, hm, Members.get?_insert_self]
    · rw [Members.get?_insert_of_ne _ _ hl, Members.get?_insert_of_ne _ _ hm, hc,
        Members.get?_insert_self]
    · rw [Members.get?_insert_of_ne _ _ hl, Members.get?_insert_of_ne _ _ hm,
        Members.get?_insert_of_ne _ _ hc, hr, Members.get?_insert_self]
    · rw [Members.get?_insert_of_ne _ _ hl, Members.get?_insert_of_ne _ _ hm,
        Members.get?_insert_of_ne _ _ hc, Members.get?_insert_of_ne _ _ hr]
      rfl
  constructor
  · rw [stated?_stamp s kind ho baseUrl id now (by decide), hget]
    rfl
  · rw [stated?_stamp s kind ho baseUrl id now (by decide), hget]
    rfl
  · rw [stated?_stamp s kind ho baseUrl id now (by decide), hget]
    rfl

theorem restamped_without_meta (now : Instant) :
    (s.restamped v now).without "meta" = v.without "meta" := by
  unfold restamped putMeta
  split
  · exact Json.without_put_self
  · rfl

/-! ### What a change leaves -/

/-- While groups are visited, every stored resource has the record that it had at the start. -/
structure Keeping (s : Service) (start : Store) (groups : List Json) (st : Store) : Prop where
  departing : s.Departing groups st
  waiting : ∀ g ∈ groups, ∀ i, g.identifier? = some i → start.get? .group i = some g
  kept : ∀ k i w, st.get? k i = some w → ∃ v, start.get? k i = some v ∧ SameRecord v w

namespace Keeping

variable {start : Store} {g : Json} {groups : List Json}

theorem skip (h : s.Keeping start (g :: groups) st) : s.Keeping start groups st where
  departing := h.departing.skip
  waiting g' hg := h.waiting g' (List.mem_cons_of_mem _ hg)
  kept := h.kept

theorem write {i : String} {left : Json} (h : s.Keeping start (g :: groups) st)
    (hi : g.identifier? = some i) (hleft : withoutMember? id g = some left) (now : Instant) :
    ∃ st', st.update .group i (s.restamped left now) = .ok st' ∧ s.Keeping start groups st' := by
  obtain ⟨st', hst, hdep⟩ := h.departing.write hi hleft now
  refine ⟨st', hst, hdep, fun g' hg => h.waiting g' (List.mem_cons_of_mem _ hg), ?_⟩
  intro k j w hw
  rw [Store.get?_update hst] at hw
  split_ifs at hw with heq
  · cases hw
    obtain ⟨rfl, rfl⟩ := heq
    obtain ⟨_, hg, -⟩ := h.departing.waiting g List.mem_cons_self
    obtain ⟨held, hmeta⟩ := hg.metadata
    -- a group without one of its members states what it did, and so does its restamped form
    have hsame := withoutMember?_get?_of_ne (show "meta" ≠ "members" by decide) hleft
    exact ⟨g, h.waiting g List.mem_cons_self j hi,
      (SameRecord.of_meta hsame).trans (sameRecord_restamped (hsame.trans hmeta) now)⟩
  · exact h.kept k j w hw

end Keeping

theorem keeping_of_delete (h : s.AllStamped st) (hd : st.delete kind id = .ok st') :
    s.Keeping st (st'.list .group none) st' := by
  have hdep := departing_of_delete h hd
  have before {k : Kind} {i : String} {w : Json} (hw : st'.get? k i = some w) :
      st.get? k i = some w := by
    rw [Store.get?_delete hd] at hw
    split_ifs at hw
    exact hw
  refine ⟨hdep, fun g hg i hi => ?_, fun k i w hw => ⟨w, before hw, .of_meta rfl⟩⟩
  obtain ⟨j, hj⟩ := (Store.mem_list hdep.stamped.sorted).mp hg
  -- a stored group has its own identifier
  have hij := (hdep.stamped.each _ _ _ hj).identifier?
  rw [hi] at hij
  cases hij
  exact before hj

section Changes

variable {kind' : Kind} {id' : String}

/-- A resource that is stored where nothing was records that, and everything else is as it was. -/
theorem inserted_record (ho : v.isObject = true)
    (hi : st.insert kind' (s.stamp kind' v baseUrl id' now) = .ok st')
    (hw : st'.get? kind id = some w) :
    (∃ u, st.get? kind id = some u ∧ SameRecord u w) ∨
      (st.get? kind id = none ∧ (kind' = kind ∧ id' = id) ∧ Recorded kind id baseUrl now w) := by
  have hstamped := s.stamp_stamped kind' ho baseUrl id' now
  obtain ⟨i, hid, hfree, -⟩ := Store.insert_eq_ok hi
  obtain rfl : i = id' := Option.some.inj (hid.symm.trans hstamped.identifier?)
  rw [Store.get?_insert hi hid] at hw
  split_ifs at hw with heq
  · obtain ⟨rfl, rfl⟩ := heq
    cases hw
    exact .inr ⟨hfree, ⟨rfl, rfl⟩, s.stamp_recorded kind ho baseUrl id now⟩
  · exact .inl ⟨w, hw, .of_meta rfl⟩

/-- A resource that is put in the place of another, with its metadata, takes its record over. -/
theorem updated_record {existing : Json} (h : s.AllStamped st)
    (he : st.get? kind' id' = some existing) (hkept : v.get? "meta" = existing.get? "meta")
    (hu : st.update kind' id' (s.restamped v now) = .ok st') (hw : st'.get? kind id = some w) :
    ∃ u, st.get? kind id = some u ∧ SameRecord u w := by
  rw [Store.get?_update hu] at hw
  split_ifs at hw with heq
  · obtain ⟨rfl, rfl⟩ := heq
    cases hw
    obtain ⟨held, hmeta⟩ := (h.each _ _ _ he).metadata
    have hsame : SameRecord existing v := .of_meta hkept
    exact ⟨existing, he, hsame.trans (sameRecord_restamped (hkept.trans hmeta) now)⟩
  · exact ⟨w, hw, .of_meta rfl⟩

/-- The groups that a deleted resource leaves have the records that they had. -/
theorem departed_record {clock : Nat → Instant} {start : Store} (h : s.AllStamped st)
    (hd : st.delete kind' id' = .ok start)
    (hw : ((s.leaveGroups id' clock 0 (start.list .group none)).run start).2.get? kind id =
      some w) :
    ∃ v, st.get? kind id = some v ∧ SameRecord v w := by
  obtain ⟨last, hleave, hlast⟩ := leaveGroups_rule (P := s.Keeping st) id' clock 0
    (fun g rest st₁ h _ => h.skip) (fun g rest st₁ i left now h hi hl => h.write hi hl now)
    (keeping_of_delete h hd)
  rw [hleave] at hw
  exact hlast.kept _ _ _ hw

end Changes

/-- What a change leaves under an identifier has the record of what was there, or is created by the
change, where nothing was. -/
theorem perform_record (h : s.AllStamped st) (a : Action)
    (hw : (s.perform st a).get? kind id = some w) :
    (∃ v, st.get? kind id = some v ∧ SameRecord v w) ∨
      (st.get? kind id = none ∧ ∃ body baseUrl now, a = .create kind body baseUrl id now ∧
        Recorded kind id baseUrl now w) := by
  have hleft := s.perform_leaves st a
  generalize s.perform st a = st' at hleft hw
  cases hleft with
  | refused => exact .inl ⟨w, hw, .of_meta rfl⟩
  | created hb hunique hres hi =>
    have ho := isObject_resolved (Registry.build_isObject hb) hres
    rcases inserted_record ho hi hw with hkept | ⟨hfree, ⟨rfl, rfl⟩, hrecorded⟩
    · exact .inl hkept
    · exact .inr ⟨hfree, _, _, _, rfl, hrecorded⟩
  | replaced hb he hunique hres hu =>
    have hkept := replaced_get? (.inr rfl) (h.each _ _ _ he) hb hres
    exact .inl (updated_record h he hkept hu hw)
  | patched he ha hunique hres hu =>
    have hkept := patched_get? (.inr rfl) (h.each _ _ _ he) ha hres
    exact .inl (updated_record h he hkept hu hw)
  | deleted hd => exact .inl (departed_record h hd hw)

/-! ### Runs -/

theorem performAll_append (st : Store) (actions : List Action) (a : Action) :
    s.performAll st (actions ++ [a]) = s.perform (s.performAll st actions) a := by
  simp [performAll]

/-- Among changes from the empty store on, one has created the resource under an identifier, when
nothing was stored there, and it has been stored ever since. -/
def CreatedBy (s : Service) (actions : List Action) (kind : Kind) (id baseUrl : String)
    (now : Instant) : Prop :=
  ∃ before body after, actions = before ++ .create kind body baseUrl id now :: after ∧
    (s.performAll .empty before).get? kind id = none ∧
    ∀ mid, mid <+: after → ((s.performAll .empty
      (before ++ .create kind body baseUrl id now :: mid)).get? kind id).isSome = true

theorem CreatedBy.snoc {a : Action} (h : s.CreatedBy actions kind id baseUrl now)
    (hstored : ((s.performAll .empty (actions ++ [a])).get? kind id).isSome = true) :
    s.CreatedBy (actions ++ [a]) kind id baseUrl now := by
  obtain ⟨before, body, after, rfl, hnone, hsince⟩ := h
  refine ⟨before, body, after ++ [a], by simp, hnone, fun mid hmid => ?_⟩
  rcases List.prefix_concat_iff.mp hmid with rfl | hmid
  · simpa using hstored
  · exact hsince mid hmid

/-- After changes from the empty store on, a stored resource has been created by one of them, and
its metadata state so. -/
theorem performAll_record (actions : List Action)
    (hv : (s.performAll .empty actions).get? kind id = some v) :
    ∃ baseUrl now, s.CreatedBy actions kind id baseUrl now ∧ Recorded kind id baseUrl now v := by
  induction actions using List.reverseRecOn generalizing v with
  | nil =>
    cases kind <;> simp [performAll, Store.get?, Store.entries, Store.empty, Members.get?] at hv
  | append_singleton actions a ih =>
    have hstored : ((s.performAll .empty (actions ++ [a])).get? kind id).isSome = true := by
      rw [hv]
      rfl
    rw [performAll_append] at hv
    have hstamped := performAll_stamped (s := s) (Store.all_empty _) actions
    rcases perform_record hstamped a hv with ⟨u, hu, hsame⟩ | ⟨hnone, body, baseUrl, now, rfl, hr⟩
    · obtain ⟨baseUrl, now, hcreated, hr⟩ := ih hu
      exact ⟨baseUrl, now, hcreated.snoc hstored, hr.of_same hsame⟩
    · refine ⟨baseUrl, now, ⟨actions, body, [], rfl, hnone, fun mid hmid => ?_⟩, hr⟩
      obtain rfl : mid = [] := List.prefix_nil.mp hmid
      exact hstored

/-! ### Revisions -/

/-- The stored resource that a change puts another in the place of. -/
def Action.revised? : Action → Option (Kind × String)
  | .replace kind id _ _ _ => some (kind, id)
  | .patch kind id _ _ _ => some (kind, id)
  | _ => none

/-- Whether a change is answered without an error. -/
def Succeeds (s : Service) (st : Store) : Action → Bool
  | .create kind body baseUrl id now => ((s.create kind body baseUrl id now).task.run st).1.toBool
  | .replace kind id body baseUrl now =>
    ((s.replace kind id body baseUrl now).task.run st).1.toBool
  | .patch kind id request baseUrl now =>
    ((s.patch kind id request baseUrl now).task.run st).1.toBool
  | .delete kind id clock => ((s.delete kind id clock).task.run st).1.toBool

/-- The resource that a change revises, and the one that it comes to, whose metadata are those of
the first. -/
def revision? (s : Service) (st : Store) : Action → Option (Json × Json)
  | .replace kind id body baseUrl _ => do
    let existing ← st.get? kind id
    let built ← (s.registry.build kind body).toOption
    let resolved ← ((resolveMembers kind built baseUrl).run st).1.toOption
    some (existing, keepAssigned existing resolved)
  | .patch kind id request baseUrl _ => do
    let existing ← st.get? kind id
    let patched ← (Operation.applyAll s.registry kind request.operations existing).toOption
    let resolved ← ((resolveMembers kind patched baseUrl).run st).1.toOption
    some (existing, resolved)
  | _ => none

/-- A revision has a version of its own where it is of another content than the resource. -/
def TellsRevision (s : Service) (st : Store) (a : Action) : Prop :=
  ∀ p ∈ s.revision? st a, p.2.without "meta" ≠ p.1.without "meta" →
    s.versionOf p.2 ≠ s.versionOf p.1

theorem toOption_eq_some {ε α : Type} {x : Except ε α} {a : α} :
    x.toOption = some a ↔ x = .ok a := by
  cases x <;> simp [Except.toOption]

theorem resolveMembers_ok (h : ((resolveMembers kind v baseUrl).run st).1 = .ok w) :
    (resolveMembers kind v baseUrl).run st = (.ok w, st) :=
  Prod.ext h (resolveMembers_reads _ _ _ st)

theorem tellsRevision_iff {a : Action} : s.TellsRevision st a ↔
    (s.revision? st a).all (fun p => decide (p.2.without "meta" = p.1.without "meta") ||
      s.versionOf p.2 != s.versionOf p.1) = true := by
  rw [Option.all_eq_true]
  refine forall₂_congr fun p _ => ?_
  rw [Bool.or_eq_true, decide_eq_true_iff, bne_iff_ne, or_iff_not_imp_left]

instance (s : Service) (st : Store) (a : Action) : Decidable (s.TellsRevision st a) :=
  decidable_of_iff _ tellsRevision_iff.symm

/-- A resource is written behind its checks, and then shown. -/
theorem settle_run_ok {apartFrom : Option String} {write : Json → Task Json} {shown : Json} :
    (settle kind v apartFrom baseUrl write).run st = (.ok shown, st') ↔
      (checkUnique kind v apartFrom).run st = (.ok (), st) ∧ ∃ resolved stored,
        (resolveMembers kind v baseUrl).run st = (.ok resolved, st) ∧
        (write resolved).run st = (.ok stored, st') ∧
        (decorate kind stored baseUrl).run st' = (.ok shown, st') := by
  constructor
  · intro h
    obtain ⟨_, st₁, hunique, hrest⟩ := Task.bind_run_ok.mp h
    obtain rfl := (checkUnique_reads _ _ _).run_ok hunique
    obtain ⟨resolved, st₂, hres, hwritten⟩ := Task.bind_run_ok.mp hrest
    obtain rfl := (resolveMembers_reads _ _ _).run_ok hres
    obtain ⟨stored, st₃, hwrite, hshow⟩ := Task.bind_run_ok.mp hwritten
    obtain rfl := (decorate_reads _ _ _).run_ok hshow
    exact ⟨hunique, resolved, stored, hres, hwrite, hshow⟩
  · rintro ⟨hunique, resolved, stored, hres, hwrite, hshow⟩
    simp only [settle, Task.run_bind, hunique, hres, hwrite, hshow]

/-- A replacement that succeeds persists the resource of its body, with what the server has
assigned, and shows what is then stored. -/
theorem replace_run_ok {body shown : Json} :
    (s.replace kind id body baseUrl now).task.run st = (.ok shown, st') ↔
      ∃ built existing resolved stored, s.registry.build kind body = .ok built ∧
        st.get? kind id = some existing ∧
        (checkUnique kind built (some id)).run st = (.ok (), st) ∧
        (resolveMembers kind built baseUrl).run st = (.ok resolved, st) ∧
        (s.persist kind id existing (keepAssigned existing resolved) now).run st =
          (.ok stored, st') ∧
        (decorate kind stored baseUrl).run st' = (.ok shown, st') := by
  rw [replace_eq]
  constructor
  · intro h
    cases hb : s.registry.build kind body with
    | error e =>
      rw [hb] at h
      cases h
    | ok built =>
      rw [hb] at h
      obtain ⟨existing, st₁, hfetch, hsettle⟩ := Task.bind_run_ok.mp h
      obtain rfl := (fetch_reads _ _).run_ok hfetch
      obtain ⟨hunique, resolved, stored, hrest⟩ := settle_run_ok.mp hsettle
      exact ⟨built, existing, resolved, stored, rfl, fetch_run_ok hfetch, hunique, hrest⟩
  · rintro ⟨built, existing, resolved, stored, hb, he, hunique, hrest⟩
    have hfetch : (Task.fetch kind id).run st = (.ok existing, st) := by
      rw [Task.fetch, Task.run_bind, Task.run_get, he]
      rfl
    rw [hb]
    exact Task.bind_run_ok.mpr
      ⟨existing, st, hfetch, settle_run_ok.mpr ⟨hunique, resolved, stored, hrest⟩⟩

/-- A replacement that succeeds ends by storing what it comes to. -/
theorem replace_persisted {body : Json}
    (h : s.Succeeds st (.replace kind id body baseUrl now) = true) :
    ∃ v w stored, s.revision? st (.replace kind id body baseUrl now) = some (v, w) ∧
      st.get? kind id = some v ∧ (s.persist kind id v w now).run st =
        (.ok stored, s.perform st (.replace kind id body baseUrl now)) := by
  obtain ⟨shown, hshown⟩ := exists_ok h
  have hrun : (s.replace kind id body baseUrl now).task.run st =
      (.ok shown, s.perform st (.replace kind id body baseUrl now)) := Prod.ext hshown rfl
  obtain ⟨built, existing, resolved, stored, hb, he, -, hres, hwrite, -⟩ := replace_run_ok.mp hrun
  refine ⟨existing, _, stored, ?_, he, hwrite⟩
  simp [revision?, he, hb, hres, Except.toOption]

theorem patch_persisted {request : PatchRequest}
    (h : s.Succeeds st (.patch kind id request baseUrl now) = true) :
    ∃ v w stored, s.revision? st (.patch kind id request baseUrl now) = some (v, w) ∧
      st.get? kind id = some v ∧ (s.persist kind id v w now).run st =
        (.ok stored, s.perform st (.patch kind id request baseUrl now)) := by
  obtain ⟨shown, hshown⟩ := exists_ok h
  have hrun : (s.patch kind id request baseUrl now).task.run st =
      (.ok shown, s.perform st (.patch kind id request baseUrl now)) := Prod.ext hshown rfl
  generalize s.perform st (.patch kind id request baseUrl now) = st' at hrun ⊢
  rw [patch_eq] at hrun
  -- the checks of the request come before anything is read
  split_ifs at hrun
  · cases hrun
  · cases hc : request.check with
    | error e =>
      rw [hc] at hrun
      cases hrun
    | ok _ =>
      rw [hc] at hrun
      obtain ⟨existing, st₁, hfetch, hrest⟩ := Task.bind_run_ok.mp hrun
      obtain rfl := (fetch_reads _ _).run_ok hfetch
      have he := fetch_run_ok hfetch
      cases hp : Operation.applyAll s.registry kind request.operations existing with
      | error e =>
        rw [hp] at hrest
        cases hrest
      | ok patched =>
        rw [hp] at hrest
        obtain ⟨-, resolved, stored, hres, hwrite, -⟩ := settle_run_ok.mp hrest
        refine ⟨existing, _, stored, ?_, he, hwrite⟩
        simp [revision?, he, hp, hres, Except.toOption]

/-- A change that revises a resource and succeeds ends by storing what it comes to. -/
theorem revision_persisted {a : Action} (ha : a.revised? = some (kind, id))
    (h : s.Succeeds st a = true) :
    ∃ v w now stored, s.revision? st a = some (v, w) ∧ st.get? kind id = some v ∧
      (s.persist kind id v w now).run st = (.ok stored, s.perform st a) := by
  cases a with
  | create kind' body baseUrl id' now => cases ha
  | delete kind' id' clock => cases ha
  | replace kind' id' body baseUrl now =>
    cases ha
    obtain ⟨v, w, stored, hpersisted⟩ := replace_persisted h
    exact ⟨v, w, now, stored, hpersisted⟩
  | patch kind' id' request baseUrl now =>
    cases ha
    obtain ⟨v, w, stored, hpersisted⟩ := patch_persisted h
    exact ⟨v, w, now, stored, hpersisted⟩

/-- The metadata of a revision are those of the resource. -/
theorem revision_meta {a : Action} (hs : s.AllStamped st) (h : s.revision? st a = some (v, w)) :
    w.get? "meta" = v.get? "meta" := by
  cases a with
  | create kind' body baseUrl id' now => cases h
  | delete kind' id' clock => cases h
  | replace kind' id' body baseUrl now =>
    simp only [revision?, Option.bind_eq_bind, Option.bind_eq_some_iff, Option.some.injEq,
      Prod.mk.injEq] at h
    obtain ⟨existing, he, built, hb, resolved, hres, rfl, rfl⟩ := h
    exact replaced_get? (.inr rfl) (hs.each _ _ _ he) (toOption_eq_some.mp hb)
      (resolveMembers_ok (toOption_eq_some.mp hres))
  | patch kind' id' request baseUrl now =>
    simp only [revision?, Option.bind_eq_bind, Option.bind_eq_some_iff, Option.some.injEq,
      Prod.mk.injEq] at h
    obtain ⟨existing, he, patched, hp, resolved, hres, rfl, rfl⟩ := h
    exact patched_get? (.inr rfl) (hs.each _ _ _ he) (toOption_eq_some.mp hp)
      (resolveMembers_ok (toOption_eq_some.mp hres))

/-- A revision of the same content leaves the store as it was; any other is stored, with a version
that the resource did not have. -/
structure Revises (st st' : Store) (kind : Kind) (id : String) (v w : Json) : Prop where
  same : w.without "meta" = v.without "meta" → st' = st
  other : w.without "meta" ≠ v.without "meta" → ∃ w', st'.get? kind id = some w' ∧
    w'.without "meta" = w.without "meta" ∧ stated? w' "version" ≠ stated? v "version"

theorem perform_revises {a : Action} (hs : s.AllStamped st) (ha : a.revised? = some (kind, id))
    (h : s.Succeeds st a = true) (ht : s.TellsRevision st a) :
    ∃ v w, s.revision? st a = some (v, w) ∧ st.get? kind id = some v ∧
      Revises st (s.perform st a) kind id v w := by
  obtain ⟨v, w, now, stored, hrev, hv, hrun⟩ := revision_persisted ha h
  have hstamped := hs.each _ _ _ hv
  obtain ⟨held, hmeta⟩ := hstamped.metadata
  have hwmeta : w.get? "meta" = some (.obj held) := (revision_meta hs hrev).trans hmeta
  refine ⟨v, w, hrev, hv, fun hsame => ?_, fun hother => ?_⟩
  · -- the version that the resource states is the one of the same content
    have hversion : statedVersion? v = some (s.versionOf w) := by
      rw [hstamped.stated, versionOf, versionOf, hsame]
    rcases s.persist_run kind id v w now st with ⟨-, hskip⟩ | ⟨hne, -⟩
    · rw [hskip] at hrun
      exact (congrArg Prod.snd hrun).symm
    · exact absurd hversion hne
  · have hversion : s.versionOf w ≠ s.versionOf v := ht (v, w) hrev hother
    rcases s.persist_run kind id v w now st with ⟨heq, -⟩ | ⟨-, hwrite⟩
    · rw [hstamped.stated] at heq
      exact absurd (Option.some.inj heq).symm hversion
    · rw [hwrite] at hrun
      cases hu : st.update kind id (s.restamped w now) with
      | error e =>
        rw [hu] at hrun
        cases hrun
      | ok st' =>
        rw [hu] at hrun
        obtain rfl : st' = s.perform st a := congrArg Prod.snd hrun
        refine ⟨s.restamped w now, ?_, restamped_without_meta now, ?_⟩
        · rw [Store.get?_update hu, if_pos ⟨rfl, rfl⟩]
        · have hnew : stated? (s.restamped w now) "version" = some (.str (s.versionOf w)) := by
            rw [restamped, putMeta_eq hwmeta,
              stated?_put_meta (Json.isObject_of_get? hwmeta)]
            exact Members.get?_insert_self _ _ _
          rw [hnew, stated?_version hstamped.stated]
          simpa using hversion

/-! ### Truth of the metadata -/

/-- A stored resource has its identifier; its metadata state the version of what it holds, and the
creation that has put it there. -/
structure Truthful (s : Service) (actions : List Action) (kind : Kind) (id : String) (v : Json) :
    Prop where
  identifier : v.get? "id" = some (.str id)
  version : stated? v "version" = some (.str (s.versionOf v))
  recorded : ∃ baseUrl now, s.CreatedBy actions kind id baseUrl now ∧
    Recorded kind id baseUrl now v

/-- After any changes from the empty store on, every stored resource is truthful about itself, and a
further change that succeeds in revising one leaves the store as it was or gives a new version. -/
theorem performAll_truthful (s : Service) (actions : List Action) :
    (∀ kind id v, (s.performAll .empty actions).get? kind id = some v →
      s.Truthful actions kind id v) ∧
    ∀ a kind id, a.revised? = some (kind, id) →
      s.Succeeds (s.performAll .empty actions) a = true →
      s.TellsRevision (s.performAll .empty actions) a →
      ∃ v w, s.revision? (s.performAll .empty actions) a = some (v, w) ∧
        (s.performAll .empty actions).get? kind id = some v ∧
        Revises (s.performAll .empty actions) (s.perform (s.performAll .empty actions) a) kind id
          v w := by
  have hstamped := performAll_stamped (s := s) (Store.all_empty _) actions
  refine ⟨fun kind id v hv => ?_, fun a kind id ha h ht => perform_revises hstamped ha h ht⟩
  have hown := hstamped.each _ _ _ hv
  exact ⟨hown.identifier, stated?_version hown.stated, performAll_record actions hv⟩

/-- The standard service with the text of a content for its version, in place of a digest. -/
def spelledService : Service := { ofSettings .standard with version := Json.toText }

/-- A user is created. -/
def joinActions : List Action :=
  [.create .user (.obj [("schemas", .arr [.str Urn.user]), ("userName", .str "bj")]) "" "u1"
    default]

/-- The user is given a title. -/
def promote : Action :=
  .patch .user "u1" ⟨[Urn.patchOperation], [.replace (some "title") (.str "Guide")]⟩ "" default

theorem performAll_truthful_promoted :
    ∃ v w, (spelledService.performAll .empty joinActions).get? .user "u1" = some v ∧
      spelledService.Truthful joinActions .user "u1" v ∧
      promote.revised? = some (.user, "u1") ∧
      spelledService.Succeeds (spelledService.performAll .empty joinActions) promote = true ∧
      spelledService.TellsRevision (spelledService.performAll .empty joinActions) promote ∧
      spelledService.revision? (spelledService.performAll .empty joinActions) promote =
        some (v, w) ∧
      Revises (spelledService.performAll .empty joinActions)
        (spelledService.perform (spelledService.performAll .empty joinActions) promote) .user "u1"
          v w := by
  obtain ⟨hstored, hrevised⟩ := performAll_truthful spelledService joinActions
  obtain ⟨hsucceeds, htells⟩ :
      spelledService.Succeeds (spelledService.performAll .empty joinActions) promote = true ∧
        spelledService.TellsRevision (spelledService.performAll .empty joinActions) promote := by
    decide +kernel
  obtain ⟨v, w, hrev, hv, hrevises⟩ := hrevised promote .user "u1" rfl hsucceeds htells
  exact ⟨v, w, hv, hstored .user "u1" v hv, rfl, hsucceeds, htells, hrev, hrevises⟩

end Service

end Roster
