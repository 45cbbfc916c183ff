import Roster.Proofs.Http.Refusal
import Roster.Proofs.Json
import Roster.Proofs.Members.Order
import Roster.Proofs.Service.Discreet

/-! What lists and searches tell of values that are never returned: nothing, as long as their
filters and sort keys do not look at these values. -/

namespace Roster

namespace Server

variable {sv : Server} {st st' : Store} {r : Registry} {kind : Kind} {v w : Json}
  {versions : Bool}

/-- Resources that are alike are shown in the same form. -/
theorem encode_apply_alike (hr : ∀ e ∈ r.extensions, isUrn e.schema.id = true) (p : Projection)
    (version : ProtocolVersion) (h : (Place.resource r kind versions).Alike v w) :
    (version.encode (p.apply r kind v)).apart versions =
      (version.encode (p.apply r kind w)).apart versions := by
  have hschemas := Projection.extension?_schemas hr kind
  have hshown (x : Json) : (version.encode (p.apply r kind x)).apart versions =
      version.encode (p.apply r kind ((Place.resource r kind versions).conceal x)) := by
    rw [Place.conceal, Projection.apply_apart hr, Projection.apply_withheld hschemas,
      ProtocolVersion.encode_apart]
  rw [hshown v, hshown w, h]

/-- Pages of resources that are alike are the same. -/
theorem page_alike (hr : ∀ e ∈ r.extensions, isUrn e.schema.id = true) (p : Projection)
    (version : ProtocolVersion) {vs ws : List Json}
    (h : List.Forall₂ (Place.resource r kind versions).Alike vs ws) (total start : Nat) :
    (Response.document 200 (version.encodeList
        (vs.map fun v => version.encode (p.apply r kind v)) total start)).apart versions =
      (Response.document 200 (version.encodeList
        (ws.map fun v => version.encode (p.apply r kind v)) total start)).apart versions := by
  have hitems : (vs.map fun v => version.encode (p.apply r kind v)).map (Json.apart versions) =
      (ws.map fun v => version.encode (p.apply r kind v)).map (Json.apart versions) := by
    rw [List.map_map, List.map_map, ← List.forall₂_eq_eq_eq, List.forall₂_map_left_iff,
      List.forall₂_map_right_iff]
    exact h.imp fun _ _ hvw => encode_apply_alike hr p version hvw
  simp only [Response.apart, Response.document, Option.map_some,
    ProtocolVersion.encodeList_apart, hitems]

/-- Two stores that list the same resources but for what is never returned, and perhaps for their
versions, are told apart by no list and no search, whatever it asks for, whose filter and sort key
do not look at any of that. Where the versions differ, they differ in the response. -/
theorem list_discreet (sv : Server) (versions : Bool)
    (hr : ∀ e ∈ sv.service.registry.extensions, isUrn e.schema.id = true)
    (hst : Store.Alike sv.service.registry versions st st') (hs : st.UsersSorted)
    (hs' : st'.UsersSorted) (c : Context) (q : ListRequest)
    (hfilter : ∀ f, sv.service.filterOf c.kind q = .ok (some f) →
      f.isDiscreet (.resource sv.service.registry c.kind versions) = true)
    (hkey : ∀ k, sv.service.sortKeyOf c.kind q = .ok (some k) →
      k.isDiscreet (.resource sv.service.registry c.kind versions) = true) :
    ((sv.list c q).run st).1.apart versions = ((sv.list c q).run st').1.apart versions ∧
      ∀ body search, SearchRequest.parse? body = some search → search.list = q →
        ((sv.search c body).run st).1.apart versions =
          ((sv.search c body).run st').1.apart versions := by
  have hlist : ((sv.list c q).run st).1.apart versions =
      ((sv.list c q).run st').1.apart versions := by
    unfold list
    cases sv.service.projectionOf c.kind q.attributes q.excludedAttributes with
    | error e => rfl
    | ok p =>
      simp only [answer_run]
      rcases Service.query_alike hr hst hs hs' hfilter hkey c.baseUrl with
        ⟨e, he, he'⟩ | ⟨page, page', hp, hp', halike, htotal, hstart⟩
      · rw [he, he']
      · rw [hp, hp']
        simp only [htotal, hstart]
        exact page_alike hr p c.version halike page.total page.startIndex
  refine ⟨hlist, fun body x hbody hx => ?_⟩
  unfold search
  rw [hbody]
  dsimp only
  split_ifs
  · rfl
  · rw [hx]
    exact hlist

/-- A request on users. -/
def onUsers : Context := ⟨.user, .v2, "http://localhost/scim/v2", none, none⟩

/-- A user with a password and a version. -/
def keeper (id userName password version : String) : Json :=
  .obj [("id", .str id), ("meta", .obj [("version", .str version)]), ("password", .str password),
    ("userName", .str userName)]

/-- Two users with passwords, and the version of the first one. -/
def keepers (first second version : String) : Store :=
  ⟨[("u1", ⟨0, keeper "u1" "bj" first version⟩), ("u2", ⟨1, keeper "u2" "bo" second "W/2"⟩)], [], 2⟩

theorem list_keepers (first second version : String) :
    (keepers first second version).list .user none =
        [keeper "u1" "bj" first version, keeper "u2" "bo" second "W/2"] ∧
      (keepers first second version).list .group none = [] := by
  constructor
  · simp only [Store.list, Store.resources, Store.entries, keepers, List.map_cons, List.map_nil]
    rw [List.mergeSort_of_pairwise (by simp)]
    rfl
  · simp [Store.list, Store.resources, Store.entries, keepers]

theorem keepers_sorted (first second version : String) :
    (keepers first second version).UsersSorted := by
  intro ms hms
  rw [(list_keepers first second version).1] at hms
  have hkeeper : ms.map Prod.fst = ["id", "meta", "password", "userName"] := by
    simp only [keeper, List.mem_cons, List.not_mem_nil, or_false, Json.obj.injEq] at hms
    rcases hms with rfl | rfl <;> rfl
  have hnames : (ms.map Prod.fst).Pairwise (· < ·) := by
    rw [hkeeper]
    decide
  exact List.pairwise_map.mp hnames

theorem keepers_alike {r : Registry} {versions : Bool}
    {first second version first' second' version' : String}
    (hfirst : (Place.resource r .user versions).Alike (keeper "u1" "bj" first version)
      (keeper "u1" "bj" first' version'))
    (hsecond : (Place.resource r .user versions).Alike (keeper "u2" "bo" second "W/2")
      (keeper "u2" "bo" second' "W/2")) :
    Store.Alike r versions (keepers first second version) (keepers first' second' version') := by
  intro kind
  cases kind with
  | user =>
    rw [(list_keepers _ _ _).1, (list_keepers _ _ _).1]
    exact .cons hfirst (.cons hsecond .nil)
  | group =>
    rw [(list_keepers _ _ _).2, (list_keepers _ _ _).2]
    exact .nil

/-- The users whose names begin so, by their names from the last one on. -/
def byName : ListRequest :=
  ⟨some "userName sw \"b\"", 1, none, some "userName", some "descending", none, none⟩

/-- A list by names is the same whatever the passwords are. -/
theorem list_discreet_names :
    Store.Alike standard.service.registry true (keepers "one" "two" "W/1")
        (keepers "three" "four" "W/3") ∧
      (∃ f k, standard.service.filterOf .user byName = .ok (some f) ∧
        standard.service.sortKeyOf .user byName = .ok (some k)) ∧
      ((standard.list onUsers byName).run (keepers "one" "two" "W/1")).1.apart true =
        ((standard.list onUsers byName).run (keepers "three" "four" "W/3")).1.apart true := by
  have hr : ∀ e ∈ standard.service.registry.extensions, isUrn e.schema.id = true := by
    decide
  have hst : Store.Alike standard.service.registry true (keepers "one" "two" "W/1")
      (keepers "three" "four" "W/3") := by
    refine keepers_alike ?_ ?_
    · change _ = _
      decide
    · change _ = _
      decide
  have hfilter : standard.service.filterOf .user byName =
      .ok (some ⟨[.test (.compare ["userName"] .sw (.text "b") false)]⟩) := by
    decide +kernel
  obtain ⟨traits, hkey⟩ : ∃ traits, standard.service.sortKeyOf .user byName =
      .ok (some ⟨["userName"], traits⟩) := ⟨_, rfl⟩
  refine ⟨hst, ⟨_, _, hfilter, hkey⟩, ?_⟩
  refine (list_discreet standard true hr hst (keepers_sorted _ _ _) (keepers_sorted _ _ _) onUsers
    byName (fun f hf => ?_) (fun k hk => ?_)).1
  · rw [show standard.service.filterOf onUsers.kind byName = _ from hfilter] at hf
    cases hf
    decide
  · rw [show standard.service.sortKeyOf onUsers.kind byName = _ from hkey] at hk
    cases hk
    change ((Place.resource _ _ _).along? ["userName"]).any Place.isWhole = true
    decide

/-- The users with this password. -/
def byPassword : ListRequest :=
  ⟨some "password eq \"first\"", 1, none, none, none, none, none⟩

theorem encodeList_total (version : ProtocolVersion) (items : List Json) (total start : Nat) :
    (version.encodeList items total start).get? "totalResults" = some (Json.ofNat total) :=
  (Members.get?_ofList (by simp [Members.keys]) "totalResults").trans (by simp [Members.get?])

/-- A list counts the resources that match. -/
theorem list_total {c : Context} {q : ListRequest} {p : Projection} {filter : Option Query}
    (hp : sv.service.projectionOf c.kind q.attributes q.excludedAttributes = .ok p)
    (hf : sv.service.filterOf c.kind q = .ok filter) (hk : sv.service.sortKeyOf c.kind q = .ok none)
    (st : Store) :
    ((sv.list c q).run st).1.body.bind (·.get? "totalResults") =
      some (Json.ofNat ((Service.matching st c.kind c.baseUrl filter).length % twoTo 32)) := by
  unfold list
  simp only [hp, answer_run, Service.run_query, hf, hk]
  exact encodeList_total c.version _ _ _

/-- The count of a list is not one of its versions. -/
theorem total_apart (versions : Bool) (response : Response) :
    (response.apart versions).body.bind (·.get? "totalResults") =
      response.body.bind (·.get? "totalResults") := by
  cases hbody : response.body with
  | none => simp [Response.apart, hbody]
  | some v =>
    simp only [Response.apart, hbody, Option.map_some, Option.bind_some]
    cases v with
    | obj members =>
      have hget := Members.get?_map
        (fun key v => if key = "Resources" then Json.apartItems versions v else v) members
        "totalResults"
      have hsame :
          (fun v => if "totalResults" = "Resources" then Json.apartItems versions v else v) = id :=
        funext fun v => if_neg (by decide)
      rw [hsame, Option.map_id] at hget
      exact hget
    | _ => rfl

theorem matching_keepers (first second version baseUrl : String) (filter : Option Query) :
    Service.matching (keepers first second version) .user baseUrl filter =
      [keeper "u1" "bj" first version, keeper "u2" "bo" second "W/2"].filter
        fun v => filter.all (·.holds v) := by
  have hshown (v : Json) : Service.shown (keepers first second version) .user baseUrl v = v := by
    unfold Service.shown
    rw [(list_keepers first second version).2]
    split <;> rfl
  rw [Service.matching, (list_keepers first second version).1, List.map_id'' hshown]

/-- Of two stores that differ in one password alone, a filter for this password tells which is
which. -/
theorem list_reveals_password :
    Store.Alike standard.service.registry false (keepers "first" "second" "W/1")
        (keepers "third" "second" "W/1") ∧
      ((standard.list onUsers byPassword).run (keepers "first" "second" "W/1")).1.apart true ≠
        ((standard.list onUsers byPassword).run (keepers "third" "second" "W/1")).1.apart true := by
  let query : Query := ⟨[.test (.compare ["password"] .eq (.text "first") false)]⟩
  have hprojection : standard.service.projectionOf onUsers.kind byPassword.attributes
      byPassword.excludedAttributes = .ok ⟨none, []⟩ := by
    decide
  have hfilter : standard.service.filterOf onUsers.kind byPassword = .ok (some query) := by
    decide +kernel
  have hkey : standard.service.sortKeyOf onUsers.kind byPassword = .ok none := by
    decide
  have hcount (first : String) :
      ((standard.list onUsers byPassword).run (keepers first "second" "W/1")).1.body.bind
        (·.get? "totalResults") = some (Json.ofNat (([keeper "u1" "bj" first "W/1",
          keeper "u2" "bo" "second" "W/2"].filter query.holds).length % twoTo 32)) := by
    rw [list_total hprojection hfilter hkey]
    have hmatching := matching_keepers first "second" "W/1" onUsers.baseUrl (some query)
    rw [show onUsers.kind = .user from rfl, hmatching]
    rfl
  refine ⟨keepers_alike ?_ rfl, fun hsame => ?_⟩
  · change _ = _
    decide
  · have htotal := congrArg (fun r : Response => r.body.bind (·.get? "totalResults")) hsame
    simp only [total_apart, hcount] at htotal
    revert htotal
    decide

end Server

end Roster
