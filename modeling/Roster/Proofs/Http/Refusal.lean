import Roster.Http.Server
import Roster.Proofs.Service.Action

/-! Requests that are answered with an error. They have no effect on the store, in every store that
requests lead to, except where the attributes to show cannot be read: these are looked at behind the
write only. -/

namespace Roster

/-- An error for an answer leaves the store as it was. -/
def Script.Refuses (m : Script Response) (st : Store) : Prop :=
  400 ≤ (m.run st).1.status → (m.run st).2 = st

/-- The request without the attributes that it asks for. -/
def Request.unprojected (r : Request) : Request :=
  { r with parameters := r.parameters.filter fun p =>
      p.1 != "attributes" && p.1 != "excludedAttributes" }

theorem Request.shown?_unprojected (r : Request) : r.unprojected.shown? = some (none, none) := by
  have none_left {name : String} (h : name = "attributes" ∨ name = "excludedAttributes") :
      (r.unprojected.parameters.filter fun p => p.1 == name) = [] := by
    rw [List.filter_eq_nil_iff]
    intro p hp
    have hkept := (List.mem_filter.mp hp).2
    rcases h with rfl | rfl <;> simp_all
  simp [shown?, parameter?, none_left (.inl rfl), none_left (.inr rfl)]

namespace Server

variable {sv : Server} {c : Context} {st : Store} {r : Request} {fresh : Fresh} {α : Type}

/-- Whether the attributes that a request asks for can be read, as far as its endpoint does so. -/
def projectsAt (sv : Server) (r : Request) : Endpoint → Bool
  | .collection kind | .resource kind _ =>
    r.shown?.all fun shown => (sv.service.projectionOf kind shown.1 shown.2).isOk
  | _ => true

/-- Whether the attributes that a request asks for can be read. -/
def projects (sv : Server) (r : Request) : Bool :=
  match Route.ofPath? sv.settings.protocol.legacy r.path with
  | some (.versioned _ endpoint) => sv.projectsAt r endpoint
  | _ => true

/-- Whether the attributes that a request on resources asks for can be read. -/
abbrev showsOf (sv : Server) (c : Context) : Prop :=
  (sv.service.projectionOf c.kind c.shown.1 c.shown.2).isOk = true

/-! ### Answers -/

theorem answer_run (c : Context) (work : Task α) (respond : α → Response) (st : Store) :
    (answer c work respond).run st = match work.run st with
      | (.ok v, st') => (respond v, st')
      | (.error e, st') => (.failure c.version e.response, st') := by
  unfold answer
  rw [Script.run_bind]
  change _ = match Script.run (ExceptT.run work) st with
    | (.ok v, st') => (respond v, st')
    | (.error e, st') => (.failure c.version e.response, st')
  cases Script.run (ExceptT.run work) st with
  | mk result st' => cases result <;> rfl

/-- What is left does not depend on how the outcome is shown. -/
theorem answer_left (c : Context) (work : Task α) (respond : α → Response) (st : Store) :
    ((answer c work respond).run st).2 = (work.run st).2 := by
  rw [answer_run]
  cases work.run st with
  | mk result st' => cases result <;> rfl

theorem refuses_pure (response : Response) (st : Store) :
    Script.Refuses (pure response) st := fun _ => rfl

/-- Where success is never shown as an error, an error comes from work that has changed nothing. -/
theorem refuses_answer {work : Task α} {respond : α → Response}
    (hw : ∀ e st', work.run st = (.error e, st') → st' = st)
    (hs : ∀ v, (respond v).status < 400) : (answer c work respond).Refuses st := by
  intro herr
  rw [answer_run] at herr ⊢
  cases hr : work.run st with
  | mk result st' =>
    cases result with
    | ok v =>
      rw [hr] at herr
      exact absurd herr (not_le.mpr (hs v))
    | error e => exact hw e st' hr

/-- A resource is shown with success when the attributes to show can be read. -/
theorem present_status (hp : sv.showsOf c) (created : Bool) (v : Json) :
    (sv.present c created v).status < 400 := by
  unfold present
  split
  · rename_i e he
    simp [showsOf, he, Except.isOk, Except.toBool] at hp
  · cases created <;> simp [Response.withHeaders, Response.document]

/-! ### Requests on resources -/

theorem query_reads (s : Service) (kind : Kind) (q : ListRequest) (baseUrl : String) :
    (s.query kind q baseUrl).Reads := by
  have all (resources : List Json) : (Service.decorateAll kind baseUrl resources).Reads := by
    induction resources with
    | nil => exact .pure _
    | cons v rest ih =>
      exact (Service.decorate_reads _ _ _).bind fun _ => ih.bind fun _ => .pure _
  refine (Task.Reads.ofExcept _).bind fun _ => (Task.Reads.ofExcept _).bind fun _ => ?_
  exact (Task.Reads.list _).bind fun _ => (all _).bind fun _ => .pure _

theorem list_left (sv : Server) (c : Context) (q : ListRequest) (st : Store) :
    ((sv.list c q).run st).2 = st := by
  unfold list
  split
  · rfl
  · rw [answer_left]
    exact query_reads _ _ _ _ st

theorem search_left (sv : Server) (c : Context) (body : String) (st : Store) :
    ((sv.search c body).run st).2 = st := by
  unfold search
  split
  · rfl
  · split_ifs
    · rfl
    · exact list_left _ _ _ _

theorem get_left (sv : Server) (c : Context) (id : String) (st : Store) :
    ((sv.get c id).run st).2 = st := by
  unfold get
  rw [answer_left]
  exact ((Service.fetch_reads _ _).bind fun _ => Service.decorate_reads _ _ _) st

section

variable (hp : sv.showsOf c)

include hp

theorem create_refuses (body : String) : (sv.create c fresh body).Refuses st := by
  unfold create
  split
  · exact refuses_pure _ _
  · exact refuses_answer (fun e st' hr => Service.create_atomic _ _ _ _ _ _ st e st' hr)
      (present_status hp true)

theorem replace_refuses (id body : String) : (sv.replace c fresh id body).Refuses st := by
  unfold replace
  split
  · exact refuses_pure _ _
  · exact refuses_answer (fun e st' hr => Service.replace_atomic _ _ _ _ _ _ st e st' hr)
      (present_status hp false)

theorem patch_refuses (id body : String) : (sv.patch c fresh id body).Refuses st := by
  unfold patch
  split
  · exact refuses_pure _ _
  · exact refuses_answer (fun e st' hr => Service.patch_atomic _ _ _ _ _ _ st e st' hr)
      (present_status hp false)

end

theorem delete_refuses (h : sv.service.AllStamped st) (id : String) :
    (sv.delete c fresh id).Refuses st :=
  refuses_answer (fun _ _ hr => Service.delete_refused h hr) fun _ => by decide

/-! ### Dispatch -/

theorem withBody_refuses {next : String → Script Response} (hn : ∀ body, (next body).Refuses st) :
    (sv.withBody r next).Refuses st := by
  unfold withBody
  split
  · exact hn _
  · exact refuses_pure _ _

theorem withShown_refuses {next : Context → Script Response}
    (hn : ∀ shown, r.shown? = some shown → (next { c with shown }).Refuses st) :
    (withShown c r next).Refuses st := by
  unfold withShown
  split
  · rename_i shown hs
    exact hn shown hs
  · exact refuses_pure _ _

theorem serve_refuses (h : sv.service.AllStamped st) (version : ProtocolVersion)
    (endpoint : Endpoint) (hp : sv.projectsAt r endpoint = true) :
    (sv.serve r fresh version endpoint).Refuses st := by
  -- an endpoint of a kind reads the attributes that its answer is shown with
  have shows {kind : Kind} {c : Context} (hk : c.kind = kind) (hs : r.shown? = some c.shown)
      (hp : (r.shown?.all fun shown =>
        (sv.service.projectionOf kind shown.1 shown.2).isOk) = true) : sv.showsOf c := by
    subst hk
    simpa [hs] using hp
  cases endpoint with
  | collection kind =>
    rw [serve]
    generalize methodOf r = method
    split
    · split
      · exact fun _ => list_left _ _ _ _
      · exact refuses_pure _ _
    · refine withShown_refuses fun _ hs => withBody_refuses fun body => ?_
      refine create_refuses ?_ body
      exact shows rfl hs hp
    · exact refuses_pure _ _
  | search kind =>
    rw [serve]
    split_ifs
    · exact withBody_refuses fun body _ => search_left _ _ _ _
    · exact refuses_pure _ _
  | resource kind id =>
    rw [serve]
    generalize methodOf r = method
    split
    · exact withShown_refuses fun _ _ _ => get_left _ _ _ _
    · refine withShown_refuses fun _ hs => withBody_refuses fun body => ?_
      refine replace_refuses ?_ id body
      exact shows rfl hs hp
    · refine withShown_refuses fun _ hs => withBody_refuses fun body => ?_
      refine patch_refuses ?_ id body
      exact shows rfl hs hp
    · exact delete_refuses h id
    · exact refuses_pure _ _
  | _ =>
    rw [serve]
    · split <;> exact refuses_pure _ _
    all_goals nofun

/-! ### Changes -/

/-- The store that a change leaves, if there is one. -/
def changed (sv : Server) (st : Store) : Option Service.Action → Store
  | some a => sv.service.perform st a
  | none => st

/-- The change that a body asks for, if the request comes with one and with attributes to show. -/
def asked? (sv : Server) (r : Request) (change? : String → Option Service.Action) :
    Option Service.Action :=
  r.shown?.bind fun _ => (r.body? sv.settings.server.bodyLimit).bind change?

/-- The change that a request asks for at an endpoint. -/
def changeAt? (sv : Server) (r : Request) (fresh : Fresh) (version : ProtocolVersion) :
    Endpoint → Option Service.Action
  | .collection kind =>
    let c : Context := ⟨kind, version, r.baseUrl version, none, none⟩
    match methodOf r with
    | "POST" => sv.asked? r fun body => (bodyOf? c body).map fun v =>
        .create kind v c.baseUrl fresh.id (fresh.clock 0)
    | _ => none
  | .resource kind id =>
    let c : Context := ⟨kind, version, r.baseUrl version, none, none⟩
    match methodOf r with
    | "PUT" => sv.asked? r fun body => (bodyOf? c body).map fun v =>
        .replace kind id v c.baseUrl (fresh.clock 0)
    | "PATCH" => sv.asked? r fun body => (PatchRequest.parse? body).map fun request =>
        .patch kind id request c.baseUrl (fresh.clock 0)
    | "DELETE" => some (.delete kind id fresh.clock)
    | _ => none
  | _ => none

theorem create_left (c : Context) (body : String) :
    ((sv.create c fresh body).run st).2 = sv.changed st ((bodyOf? c body).map fun v =>
      .create c.kind v c.baseUrl fresh.id (fresh.clock 0)) := by
  unfold create
  cases bodyOf? c body with
  | none => rfl
  | some v => exact answer_left _ _ _ _

theorem replace_left (c : Context) (id body : String) :
    ((sv.replace c fresh id body).run st).2 = sv.changed st ((bodyOf? c body).map fun v =>
      .replace c.kind id v c.baseUrl (fresh.clock 0)) := by
  unfold replace
  cases bodyOf? c body with
  | none => rfl
  | some v => exact answer_left _ _ _ _

theorem patch_left (c : Context) (id body : String) :
    ((sv.patch c fresh id body).run st).2 = sv.changed st ((PatchRequest.parse? body).map
      fun request => .patch c.kind id request c.baseUrl (fresh.clock 0)) := by
  unfold patch
  cases PatchRequest.parse? body with
  | none => rfl
  | some request => exact answer_left _ _ _ _

theorem asked_left {next : Context → String → Script Response}
    {change? : String → Option Service.Action}
    (hn : ∀ shown body, ((next { c with shown } body).run st).2 = sv.changed st (change? body)) :
    ((withShown c r fun c => sv.withBody r (next c)).run st).2 =
      sv.changed st (sv.asked? r change?) := by
  unfold withShown withBody asked?
  cases r.shown? with
  | none => rfl
  | some shown =>
    cases r.body? sv.settings.server.bodyLimit with
    | none => rfl
    | some body => exact hn shown body

/-- A request for a change leaves the store as the change does; any other changes nothing. -/
theorem serve_left (version : ProtocolVersion) (endpoint : Endpoint) :
    ((sv.serve r fresh version endpoint).run st).2 =
      sv.changed st (sv.changeAt? r fresh version endpoint) := by
  cases endpoint with
  | collection kind =>
    rw [serve, changeAt?]
    generalize methodOf r = method
    split
    · cases r.list? with
      | none => rfl
      | some q => exact list_left _ _ _ _
    · exact asked_left fun shown body => create_left _ body
    · rename_i hpost
      simp only [changed]
      rfl
  | search kind =>
    rw [serve]
    split_ifs
    · unfold withBody
      cases r.body? sv.settings.server.bodyLimit with
      | none => rfl
      | some body => exact search_left _ _ _ _
    · rfl
  | resource kind id =>
    rw [serve, changeAt?]
    generalize methodOf r = method
    split
    · unfold withShown
      cases r.shown? with
      | none => rfl
      | some shown => exact get_left _ _ _ _
    · exact asked_left fun shown body => replace_left _ id body
    · exact asked_left fun shown body => patch_left _ id body
    · exact answer_left _ _ _ _
    · simp only [changed]
      rfl
  | _ => rfl

theorem changeAt?_unprojected (hs : r.shown?.isSome = true) (version : ProtocolVersion)
    (endpoint : Endpoint) :
    sv.changeAt? r.unprojected fresh version endpoint = sv.changeAt? r fresh version endpoint := by
  have same (change? : String → Option Service.Action) :
      sv.asked? r.unprojected change? = sv.asked? r change? := by
    obtain ⟨shown, hs⟩ := Option.isSome_iff_exists.mp hs
    rw [asked?, asked?, hs, Request.shown?_unprojected]
    rfl
  cases endpoint with
  | collection kind =>
    rw [changeAt?, changeAt?, same]
    rfl
  | resource kind id =>
    rw [changeAt?, changeAt?, same, same]
    rfl
  | _ => rfl

/-! ### Requests -/

theorem health_left (st : Store) : (health.run st).2 = st := rfl

/-- The change that a request asks for. -/
def change? (sv : Server) (r : Request) (fresh : Fresh) : Option Service.Action :=
  if r.isRefused sv.settings.server.bodyLimit then none
  else match Route.ofPath? sv.settings.protocol.legacy r.path with
    | some (.versioned version endpoint) => sv.changeAt? r fresh version endpoint
    | _ => none

theorem route_left (route : Option Route) :
    ((sv.route r fresh route).run st).2 = match route with
      | some (.versioned version endpoint) => sv.changed st (sv.changeAt? r fresh version endpoint)
      | _ => st := by
  match route with
  | none => rfl
  | some .health =>
    rw [Server.route]
    split_ifs
    · exact health_left st
    · rfl
  | some .liveness => rfl
  | some (.versioned version endpoint) => exact serve_left version endpoint

/-- The answer to a request that is not refused outright is that of its route, but for the body. -/
theorem handle_run (hr : ¬ r.isRefused sv.settings.server.bodyLimit = true) :
    ((sv.handle r fresh).run st).1.status = ((sv.route r fresh
        (Route.ofPath? sv.settings.protocol.legacy r.path)).run st).1.status ∧
      ((sv.handle r fresh).run st).2 = ((sv.route r fresh
        (Route.ofPath? sv.settings.protocol.legacy r.path)).run st).2 := by
  unfold handle
  rw [if_neg hr, Script.run_bind]
  split_ifs
  · exact ⟨rfl, rfl⟩
  · exact ⟨rfl, rfl⟩

/-- A request leaves what the change that it asks for leaves. -/
theorem handle_left : ((sv.handle r fresh).run st).2 = sv.changed st (sv.change? r fresh) := by
  by_cases hr : r.isRefused sv.settings.server.bodyLimit = true
  · rw [handle, change?, if_pos hr, if_pos hr]
    rfl
  · rw [(handle_run hr).2, route_left, change?, if_neg hr]
    split
    · rfl
    · rfl

theorem handle_refuses (h : sv.service.AllStamped st) (hp : sv.projects r = true) :
    (sv.handle r fresh).Refuses st := by
  by_cases hr : r.isRefused sv.settings.server.bodyLimit = true
  · rw [handle, if_pos hr]
    exact refuses_pure _ _
  · intro herr
    rw [(handle_run hr).1] at herr
    rw [(handle_run hr).2]
    unfold projects at hp
    split at hp
    · rename_i hroute
      rw [hroute] at herr ⊢
      exact serve_refuses h _ _ hp herr
    · rename_i hno
      rw [route_left]
      split
      · exact absurd ‹_› (hno _ _)
      · rfl

theorem projectsAt_of_none (hs : r.shown? = none) (endpoint : Endpoint) :
    sv.projectsAt r endpoint = true := by
  cases endpoint <;> simp [projectsAt, hs]

/-- Attributes that cannot be read make no difference to the change that a request asks for. -/
theorem change?_unprojected (hp : sv.projects r = false) :
    sv.change? r.unprojected fresh = sv.change? r fresh := by
  change (if r.isRefused _ then none else
    match Route.ofPath? sv.settings.protocol.legacy r.path with
    | some (.versioned version endpoint) => sv.changeAt? r.unprojected fresh version endpoint
    | _ => none) = _
  unfold change?
  unfold projects at hp
  split at hp
  · rename_i hroute
    have hshown : r.shown?.isSome = true := by
      rw [Option.isSome_iff_ne_none]
      intro hnone
      rw [projectsAt_of_none hnone] at hp
      cases hp
    rw [changeAt?_unprojected hshown]
  · cases hp

/-! ### Reachable stores -/

/-- The stores that requests lead to from the empty one, in whatever order they come. -/
inductive Reachable (sv : Server) : Store → Prop
  | empty : sv.Reachable .empty
  | step {st : Store} (h : sv.Reachable st) (r : Request) (fresh : Fresh) :
      sv.Reachable ((sv.handle r fresh).run st).2

theorem Reachable.stamped (h : sv.Reachable st) : sv.service.AllStamped st := by
  induction h with
  | empty => exact Store.all_empty _
  | step h r fresh ih =>
    rw [handle_left]
    cases sv.change? r fresh with
    | none => exact ih
    | some a => exact Service.perform_stamped ih a

/-- The server of standard settings. -/
def standard : Server := .ofSettings ⟨.standard, .standard, .standard⟩

/-- What is given to a request at the start of time. -/
def firstFresh : Fresh := ⟨"1", fun _ => default⟩

/-- A group with a member that is not stored. -/
def strayGroup : Request where
  method := "POST"
  path := "/scim/v2/Groups"
  parameters := []
  headers := []
  body := "\x7b\"schemas\":[\"urn:ietf:params:scim:schemas:core:2.0:Group\"]," ++
    "\"displayName\":\"Staff\",\"members\":[\x7b\"value\":\"u1\"\x7d]\x7d"

/-- A user, to be shown with attributes that cannot be read. -/
def unreadableUser : Request where
  method := "POST"
  path := "/scim/v2/Users"
  parameters := [("attributes", "emails[type")]
  headers := []
  body := "\x7b\"schemas\":[\"urn:ietf:params:scim:schemas:core:2.0:User\"]," ++
    "\"userName\":\"bj\"\x7d"

/-- A request that is answered with an error leaves the store as it was, unless the attributes that
it asks for cannot be read: then it leaves what it would without asking for them. -/
theorem handle_refused (hs : sv.Reachable st)
    (herr : 400 ≤ ((sv.handle r fresh).run st).1.status) :
    ((sv.handle r fresh).run st).2 = st ↔
      sv.projects r = true ∨ ((sv.handle r.unprojected fresh).run st).2 = st := by
  constructor
  · -- where the attributes cannot be read, both requests ask for the same change
    intro hleft
    cases hp : sv.projects r with
    | true => exact .inl rfl
    | false =>
      rw [handle_left, change?_unprojected hp, ← handle_left]
      exact .inr hleft
  · rintro (hp | hleft)
    · exact handle_refuses hs.stamped hp herr
    · cases hp : sv.projects r with
      | true => exact handle_refuses hs.stamped hp herr
      | false => rwa [handle_left, change?_unprojected hp, ← handle_left] at hleft

theorem handle_refused_stray :
    standard.Reachable .empty ∧
      400 ≤ ((standard.handle strayGroup firstFresh).run .empty).1.status ∧
      ((standard.handle strayGroup firstFresh).run .empty).2 = .empty := by
  have herr : 400 ≤ ((standard.handle strayGroup firstFresh).run .empty).1.status := by
    decide +kernel
  exact ⟨.empty, herr, (handle_refused .empty herr).mpr (.inl (by decide))⟩

/-- The user is stored, and the answer is an error. -/
theorem handle_stores_unreadable :
    standard.Reachable .empty ∧
      ((standard.handle unreadableUser firstFresh).run .empty).1.status = 400 ∧
      ((standard.handle unreadableUser firstFresh).run .empty).2 ≠ .empty := by
  refine ⟨.empty, by decide +kernel, fun hleft => ?_⟩
  have hcount : ((standard.handle unreadableUser firstFresh).run .empty).2.count .user = 1 := by
    decide +kernel
  rw [hleft] at hcount
  cases hcount

end Server

end Roster
