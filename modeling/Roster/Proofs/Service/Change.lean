import Roster.Proofs.Service.Resolution
import Roster.Service.Change

/-! What each change leaves of the store: nothing but one resource that is put, or one that is
deleted with its memberships. A change that fails leaves the store as it was. -/

namespace Roster

namespace Service

variable {s : Service} {st st' : Store} {kind : Kind} {id baseUrl : String} {body : Json}
  {now : Instant}

/-! ### What the server assigns -/

/-- A resource has its identifier, and its metadata state the version of its content. -/
structure Stamped (s : Service) (id : String) (v : Json) : Prop where
  identifier : v.get? "id" = some (.str id)
  stated : statedVersion? v = some (s.versionOf v)

theorem Stamped.identifier? {v : Json} (h : s.Stamped id v) : v.identifier? = some id := by
  simp [Json.identifier?, h.identifier, Json.string?]

theorem Stamped.isObject {v : Json} (h : s.Stamped id v) : v.isObject = true :=
  Json.isObject_of_get? h.identifier

theorem Stamped.metadata {v : Json} (h : s.Stamped id v) :
    ∃ held, v.get? "meta" = some (.obj held) := by
  obtain ⟨text, htext, -⟩ := Option.bind_eq_some_iff.mp h.stated
  obtain ⟨m, hm, hversion⟩ := Option.bind_eq_some_iff.mp htext
  cases m with
  | obj held => exact ⟨held, hm⟩
  | _ => simp [Json.get?, Json.members?] at hversion

theorem putMeta_eq {v : Json} {held : Members Json} (h : v.get? "meta" = some (.obj held))
    (members : List (String × Json)) :
    putMeta v members = v.put "meta" (.obj (Members.merge held members)) := by
  simp [putMeta, h]

theorem versionOf_put_meta (s : Service) (v x : Json) :
    s.versionOf (v.put "meta" x) = s.versionOf v :=
  congrArg s.version Json.without_put_self

/-- Writing the version of a resource into its metadata stamps it. -/
theorem stamped_putMeta {v : Json} {held : Members Json} {members : List (String × Json)}
    (hid : v.get? "id" = some (.str id)) (hm : v.get? "meta" = some (.obj held))
    (hv : (Members.merge held members).get? "version" = some (.str (s.versionOf v))) :
    s.Stamped id (putMeta v members) := by
  have ho := Json.isObject_of_get? hid
  rw [putMeta_eq hm]
  refine ⟨?_, ?_⟩
  · rw [Json.get?_put_of_ne (by decide), hid]
  · have hversion : (Json.obj (Members.merge held members)).get? "version" =
        some (.str (s.versionOf v)) := hv
    simp [statedVersion?, Json.get?_put_self ho, hversion, versionOf_put_meta, Json.string?]

/-- The form in which an updated resource is stored. -/
def restamped (s : Service) (updated : Json) (now : Instant) : Json :=
  putMeta updated [("lastModified", .str now.toText), ("version", .str (s.versionOf updated))]

theorem restamped_stamped {updated : Json} {held : Members Json}
    (hid : updated.get? "id" = some (.str id)) (hm : updated.get? "meta" = some (.obj held))
    (now : Instant) : s.Stamped id (s.restamped updated now) :=
  stamped_putMeta hid hm (Members.get?_insert_self _ _ _)

theorem stamp_stamped (s : Service) (kind : Kind) {v : Json} (ho : v.isObject = true)
    (baseUrl id : String) (now : Instant) :
    s.Stamped id (s.stamp kind v baseUrl id now) := by
  have hid : ((v.put "id" (.str id)).put "meta"
      (((Meta.createdAt kind.name now).withLocation (location baseUrl kind id)).toJson)).get? "id" =
        some (.str id) := by
    rw [Json.get?_put_of_ne (by decide), Json.get?_put_self ho]
  refine stamped_putMeta hid (Json.get?_put_self (by simpa using ho)) ?_
  exact Members.get?_insert_self _ _ _

/-! ### Steps of the changes -/

theorem checkUnique_reads (kind : Kind) (resource : Json) (apartFrom : Option String) :
    (checkUnique kind resource apartFrom).Reads := by
  unfold checkUnique
  split
  · refine (Task.Reads.find _).bind fun found => ?_
    cases found with
    | some _ => exact .throw _
    | none => exact .pure _
  · exact .pure _

theorem decorate_reads (kind : Kind) (resource : Json) (baseUrl : String) :
    (decorate kind resource baseUrl).Reads := by
  unfold decorate
  split
  · refine (Task.Reads.list _).bind fun groups => ?_
    dsimp only
    split_ifs
    · exact .pure _
    · exact .pure _
  · exact .pure _

theorem decorate_sure (kind : Kind) (resource : Json) (baseUrl : String) :
    (decorate kind resource baseUrl).Sure := by
  unfold decorate
  split
  · refine (Task.Sure.list _).bind fun groups => ?_
    dsimp only
    split_ifs
    · exact .pure _
    · exact .pure _
  · exact .pure _

theorem fetch_reads (kind : Kind) (id : String) : (Task.fetch kind id).Reads := by
  refine (Task.Reads.get _ _).bind fun found => ?_
  cases found with
  | some _ => exact .pure _
  | none => exact .throw _

theorem fetch_run_ok {v : Json} (h : (Task.fetch kind id).run st = (.ok v, st')) :
    st.get? kind id = some v := by
  obtain ⟨found, s₁, hfound, h⟩ := Task.bind_run_ok.mp h
  obtain ⟨rfl, rfl⟩ : st.get? kind id = found ∧ st = s₁ := by simpa using hfound
  cases hg : st.get? kind id with
  | some w =>
    rw [hg] at h
    obtain ⟨rfl, -⟩ : w = v ∧ st = st' := by simpa using h
    rfl
  | none => simp [hg] at h

theorem persist_atomic (s : Service) (kind : Kind) (id : String) (existing updated : Json)
    (now : Instant) : (s.persist kind id existing updated now).Atomic := by
  unfold persist
  dsimp only
  split_ifs
  · exact (Task.Reads.pure _).atomic
  · exact .update _ _ _

/-- An update is skipped where the version stays, and else it stores the restamped resource. -/
theorem persist_run (s : Service) (kind : Kind) (id : String) (existing updated : Json)
    (now : Instant) (st : Store) :
    (statedVersion? existing = some (s.versionOf updated) ∧
        (s.persist kind id existing updated now).run st = (.ok existing, st)) ∨
      (statedVersion? existing ≠ some (s.versionOf updated) ∧
        (s.persist kind id existing updated now).run st =
          match st.update kind id (s.restamped updated now) with
          | .ok st' => (.ok (s.restamped updated now), st')
          | .error e => (.error (.store e), st)) := by
  unfold persist
  dsimp only
  split_ifs with h
  · exact .inl ⟨h, rfl⟩
  · exact .inr ⟨h, Task.run_update _ _ _ _⟩

/-- What is left is the store as it was or with the restamped resource. -/
theorem persist_left {existing updated : Json}
    (h : ((s.persist kind id existing updated now).run st).2 = st') :
    st' = st ∨ st.update kind id (s.restamped updated now) = .ok st' := by
  subst h
  rcases s.persist_run kind id existing updated now st with ⟨-, hr⟩ | ⟨-, hr⟩
  · exact .inl (by rw [hr])
  · rw [hr]
    cases hu : st.update kind id (s.restamped updated now) with
    | ok st' => exact .inr rfl
    | error e => exact .inl rfl

/-! ### Creating, replacing and modifying -/

/-- The way in which a resource is written by all three: its name and members are checked, it is
written, and it is shown. -/
def settle (kind : Kind) (v : Json) (apartFrom : Option String) (baseUrl : String)
    (write : Json → Task Json) : Task Json := do
  checkUnique kind v apartFrom
  let resolved ← resolveMembers kind v baseUrl
  let stored ← write resolved
  decorate kind stored baseUrl

section

variable {v : Json} {apartFrom : Option String} {write : Json → Task Json}

theorem settle_atomic (hw : ∀ v, (write v).Atomic) :
    (settle kind v apartFrom baseUrl write).Atomic := by
  refine .after_reads (checkUnique_reads _ _ _) fun _ => ?_
  refine .after_reads (resolveMembers_reads _ _ _) fun resolved => ?_
  exact (hw resolved).before_sure fun stored => decorate_sure _ _ _

theorem settle_left (h : ((settle kind v apartFrom baseUrl write).run st).2 = st') :
    st' = st ∨ ∃ resolved, (checkUnique kind v apartFrom).run st = (.ok (), st) ∧
      (resolveMembers kind v baseUrl).run st = (.ok resolved, st) ∧
      ((write resolved).run st).2 = st' := by
  unfold settle at h
  -- neither the check nor the resolution changes the store that the write finds
  rcases (checkUnique_reads kind v apartFrom).bind_run _ st with ⟨e, -, hr⟩ | ⟨_, hunique, hr⟩
  · rw [hr] at h
    exact .inl h.symm
  · rw [hr] at h
    rcases (resolveMembers_reads kind v baseUrl).bind_run _ st with
      ⟨e, -, hr⟩ | ⟨resolved, hres, hr⟩
    · rw [hr] at h
      exact .inl h.symm
    · rw [hr, Task.run_bind_reads fun stored => decorate_reads _ _ _] at h
      exact .inr ⟨resolved, hunique, hres, h⟩

end

theorem create_eq (s : Service) (kind : Kind) (body : Json) (baseUrl id : String) (now : Instant) :
    s.create kind body baseUrl id now = (s.registry.build kind body).map fun resource =>
      settle kind resource none baseUrl fun resolved =>
        Task.insert kind (s.stamp kind resolved baseUrl id now) := rfl

theorem create_atomic (s : Service) (kind : Kind) (body : Json) (baseUrl id : String)
    (now : Instant) : (s.create kind body baseUrl id now).task.Atomic := by
  rw [create_eq]
  cases s.registry.build kind body with
  | error e => exact .throw e
  | ok resource => exact settle_atomic fun resolved => .insert _ _

/-- A creation stores a stamped resource, whose members are resolved, or nothing. -/
theorem create_left (h : ((s.create kind body baseUrl id now).task.run st).2 = st') :
    st' = st ∨ ∃ built resolved, s.registry.build kind body = .ok built ∧
      (checkUnique kind built none).run st = (.ok (), st) ∧
      (resolveMembers kind built baseUrl).run st = (.ok resolved, st) ∧
      st.insert kind (s.stamp kind resolved baseUrl id now) = .ok st' := by
  rw [create_eq] at h
  cases hb : s.registry.build kind body with
  | error e =>
    rw [hb] at h
    exact .inl h.symm
  | ok built =>
    rw [hb] at h
    rcases settle_left h with rfl | ⟨resolved, hunique, hres, hw⟩
    · exact .inl rfl
    · rw [Task.run_insert] at hw
      cases hi : st.insert kind (s.stamp kind resolved baseUrl id now) with
      | error e =>
        rw [hi] at hw
        exact .inl hw.symm
      | ok s₁ =>
        rw [hi] at hw
        exact .inr ⟨built, resolved, rfl, hunique, hres, hw ▸ hi⟩

theorem replace_eq (s : Service) (kind : Kind) (id : String) (body : Json) (baseUrl : String)
    (now : Instant) :
    s.replace kind id body baseUrl now = (s.registry.build kind body).map fun resource =>
      Task.fetch kind id >>= fun existing => settle kind resource (some id) baseUrl fun resolved =>
        s.persist kind id existing (keepAssigned existing resolved) now := rfl

theorem replace_atomic (s : Service) (kind : Kind) (id : String) (body : Json) (baseUrl : String)
    (now : Instant) : (s.replace kind id body baseUrl now).task.Atomic := by
  rw [replace_eq]
  cases s.registry.build kind body with
  | error e => exact .throw e
  | ok resource =>
    exact .after_reads (fetch_reads _ _) fun existing =>
      settle_atomic fun resolved => persist_atomic _ _ _ _ _ _

/-- A replacement stores the resource of the body with what the server has assigned, or nothing. -/
theorem replace_left (h : ((s.replace kind id body baseUrl now).task.run st).2 = st') :
    st' = st ∨ ∃ built existing resolved, s.registry.build kind body = .ok built ∧
      st.get? kind id = some existing ∧
      (checkUnique kind built (some id)).run st = (.ok (), st) ∧
      (resolveMembers kind built baseUrl).run st = (.ok resolved, st) ∧
      st.update kind id (s.restamped (keepAssigned existing resolved) now) = .ok st' := by
  rw [replace_eq] at h
  cases hb : s.registry.build kind body with
  | error e =>
    rw [hb] at h
    exact .inl h.symm
  | ok built =>
    rw [hb] at h
    change (Task.run (_ >>= _) st).2 = st' at h
    rcases (fetch_reads kind id).bind_run _ st with ⟨e, -, hr⟩ | ⟨existing, hfetch, hr⟩
    · rw [hr] at h
      exact .inl h.symm
    · rw [hr] at h
      rcases settle_left h with rfl | ⟨resolved, hunique, hres, hw⟩
      · exact .inl rfl
      · rcases persist_left hw with rfl | hu
        · exact .inl rfl
        · exact .inr ⟨built, existing, resolved, rfl, fetch_run_ok hfetch, hunique, hres, hu⟩

theorem patch_eq (s : Service) (kind : Kind) (id : String) (request : PatchRequest)
    (baseUrl : String) (now : Instant) :
    s.patch kind id request baseUrl now =
      if !s.protocol.patch then .error (.notOffered .patch)
      else match request.check with
        | .error e => .error (.patch e)
        | .ok () => .ok <| Task.fetch kind id >>= fun existing =>
          match Operation.applyAll s.registry kind request.operations existing with
          | .error e => throw (.patch e)
          | .ok patched => settle kind patched (some id) baseUrl fun resolved =>
              s.persist kind id existing resolved now := rfl

theorem patch_atomic (s : Service) (kind : Kind) (id : String) (request : PatchRequest)
    (baseUrl : String) (now : Instant) : (s.patch kind id request baseUrl now).task.Atomic := by
  rw [patch_eq]
  split_ifs
  · exact .throw _
  · cases request.check with
    | error e => exact .throw _
    | ok _ =>
      refine .after_reads (fetch_reads _ _) fun existing => ?_
      cases Operation.applyAll s.registry kind request.operations existing with
      | error e => exact .throw _
      | ok patched => exact settle_atomic fun resolved => persist_atomic _ _ _ _ _ _

/-- A modification stores the modified resource, or nothing. -/
theorem patch_left {request : PatchRequest}
    (h : ((s.patch kind id request baseUrl now).task.run st).2 = st') :
    st' = st ∨ ∃ existing patched resolved, st.get? kind id = some existing ∧
      Operation.applyAll s.registry kind request.operations existing = .ok patched ∧
      (checkUnique kind patched (some id)).run st = (.ok (), st) ∧
      (resolveMembers kind patched baseUrl).run st = (.ok resolved, st) ∧
      st.update kind id (s.restamped resolved now) = .ok st' := by
  rw [patch_eq] at h
  split_ifs at h
  · exact .inl h.symm
  · cases hc : request.check with
    | error e =>
      rw [hc] at h
      exact .inl h.symm
    | ok _ =>
      rw [hc] at h
      change (Task.run (_ >>= _) st).2 = st' at h
      rcases (fetch_reads kind id).bind_run _ st with ⟨e, -, hr⟩ | ⟨existing, hfetch, hr⟩
      · rw [hr] at h
        exact .inl h.symm
      · rw [hr] at h
        cases ha : Operation.applyAll s.registry kind request.operations existing with
        | error e =>
          rw [ha] at h
          exact .inl h.symm
        | ok patched =>
          rw [ha] at h
          rcases settle_left h with rfl | ⟨resolved, hunique, hres, hw⟩
          · exact .inl rfl
          · rcases persist_left hw with rfl | hu
            · exact .inl rfl
            · exact .inr ⟨existing, patched, resolved, fetch_run_ok hfetch, ha, hunique, hres, hu⟩

end Service

end Roster
