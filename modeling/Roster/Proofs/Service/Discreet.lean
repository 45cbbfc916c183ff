import Roster.Proofs.Query.Discreet
import Roster.Proofs.Service.Page
import Roster.Proofs.Sorting

/-! Two stores that list the same resources but for what is concealed. Resources are shown and found
in the one as in the other, by filters and sort keys that do not look at what is concealed. -/

namespace Roster

variable {r : Registry} {kind : Kind} {versions : Bool} {p q : Place} {name key : String}
  {v w : Json}

/-! ### Attributes of which nothing is concealed -/

namespace Place

/-- The names at the top of a resource that the server itself looks at. -/
def served : Kind → List String
  | .user => ["id", "groups"]
  | .group => ["id", "members", "displayName"]

/-- Nothing of what the server itself looks at is concealed. -/
theorem next?_served (hr : ∀ e ∈ r.extensions, isUrn e.schema.id = true) (versions : Bool)
    (hname : name ∈ served kind) :
    ∃ q, (resource r kind versions).next? name = some q ∧ q.conceal = id := by
  have hserved : ∀ kind ∈ [Kind.user, .group], ∀ name ∈ served kind,
      isUrn name = false ∧ sameName "meta" name = false ∧
        (findAttribute? kind.attributes name).any
          (fun a => !a.isNever && (value a).isWhole) = true := by
    decide
  obtain ⟨hurn, hmeta, hfound⟩ := hserved kind (by cases kind <;> simp) name hname
  obtain ⟨a, hfind, ha⟩ := Option.any_eq_true _ _ |>.mp hfound
  rw [Bool.and_eq_true, Bool.not_eq_true'] at ha
  refine ⟨.value a, ?_, funext fun v => conceal_of_whole ha.2 v⟩
  have hcore := Projection.extension?_eq_none_of_not_urn hr kind hurn
  simp [next?, hmeta, hcore, among, hfind, ha.1]

theorem Alike.get?_served (hr : ∀ e ∈ r.extensions, isUrn e.schema.id = true)
    (h : (resource r kind versions).Alike v w) (hname : name ∈ served kind) :
    v.get? name = w.get? name := by
  obtain ⟨q, hq, hid⟩ := next?_served hr versions hname
  have hget (x : Json) : ((resource r kind versions).conceal x).get? name = x.get? name := by
    rw [get?_conceal hq, hid, Option.map_id]
    rfl
  rw [← hget v, h, hget w]

theorem Alike.member?_served (hr : ∀ e ∈ r.extensions, isUrn e.schema.id = true)
    (h : (resource r kind versions).Alike v w) (hname : name ∈ served kind) :
    v.member? name = w.member? name := by
  obtain ⟨q, hq, hid⟩ := next?_served hr versions hname
  have hmember (x : Json) :
      ((resource r kind versions).conceal x).member? name = x.member? name := by
    rw [member?_conceal hq, hid, Option.map_id]
    rfl
  rw [← hmember v, h, hmember w]

theorem Alike.identifier? (hr : ∀ e ∈ r.extensions, isUrn e.schema.id = true)
    (h : (resource r kind versions).Alike v w) : v.identifier? = w.identifier? := by
  rw [Json.identifier?, Json.identifier?, h.get?_served hr (by cases kind <;> simp [served])]

/-- What is put under a name is put in the place of what is concealed of it. -/
theorem conceal_put (h : p.next? key = some q) (hs : ∀ ms, v = .obj ms → Members.Sorted ms)
    (x : Json) : p.conceal (v.put key x) = (p.conceal v).put key (q.conceal x) := by
  cases v with
  | obj ms =>
    have hkept : p.keep? (key, x) = some (key, q.conceal x) := keep?_next h (sameName_refl key)
    rw [Json.put, conceal_obj, conceal_obj, Json.put,
      Members.insert_filterMap (fun _ _ => keep?_key) (hs ms rfl) hkept]
  | _ =>
    cases p with
    | resource r kind versions => cases versions <;> rfl
    | _ => rfl

end Place

/-! ### Resources as they are shown -/

/-- The stores list the same resources of each kind in the same order, but for what is concealed. -/
def Store.Alike (r : Registry) (versions : Bool) (st st' : Store) : Prop :=
  ∀ kind, List.Forall₂ (Place.resource r kind versions).Alike (st.list kind none)
    (st'.list kind none)

/-- The users of the store are objects whose members are in order. -/
def Store.UsersSorted (st : Store) : Prop :=
  ∀ ms, Json.obj ms ∈ st.list .user none → Members.Sorted ms

namespace Service

variable {st st' : Store} {baseUrl id : String} {k : Option SortKey}
  {vs ws : List Json} {s : Service} {q : ListRequest}

variable (hr : ∀ e ∈ r.extensions, isUrn e.schema.id = true)

include hr

/-- A user shows the same of groups that are alike. -/
theorem memberships_congr (h : List.Forall₂ (Place.resource r .group versions).Alike vs ws)
    (id baseUrl : String) : (vs.filter (hasMember id)).filterMap (membership? baseUrl) =
      (ws.filter (hasMember id)).filterMap (membership? baseUrl) := by
  induction h with
  | nil => rfl
  | @cons v w vs ws hvw _ ih =>
    have hmember : hasMember id v = hasMember id w := by
      rw [hasMember, hasMember, hvw.member?_served hr (by simp [Place.served])]
    have hshown : membership? baseUrl v = membership? baseUrl w := by
      rw [membership?, membership?, hvw.identifier? hr,
        hvw.member?_served hr (by simp [Place.served])]
    rw [List.filter_cons, List.filter_cons, hmember]
    split_ifs
    · rw [List.filterMap_cons, List.filterMap_cons, hshown, ih]
    · exact ih

/-- Resources that are alike are shown alike. -/
theorem shown_alike (hst : Store.Alike r versions st st')
    (hv : v ∈ st.list kind none) (hw : w ∈ st'.list kind none) (hs : st.UsersSorted)
    (hs' : st'.UsersSorted) (h : (Place.resource r kind versions).Alike v w) (baseUrl : String) :
    (Place.resource r kind versions).Alike (shown st kind baseUrl v)
      (shown st' kind baseUrl w) := by
  cases kind with
  | group => exact h
  | user =>
    have hserved : "groups" ∈ Place.served .user := by simp [Place.served]
    obtain ⟨q, hq, -⟩ := Place.next?_served hr versions hserved
    simp only [shown]
    rw [h.identifier? hr]
    cases w.identifier? with
    | none => exact h
    | some id =>
      simp only [memberships_congr hr (hst .group) id baseUrl]
      split_ifs
      · exact h
      · rw [Place.Alike, Place.conceal_put hq fun ms hms => hs ms (hms ▸ hv),
          Place.conceal_put hq fun ms hms => hs' ms (hms ▸ hw), h]

/-! ### Pages -/

/-- The same resources match a discreet filter, but for what is concealed. -/
theorem matching_alike (hst : Store.Alike r versions st st') (hs : st.UsersSorted)
    (hs' : st'.UsersSorted)
    (filter : Option Query)
    (hfilter : ∀ f ∈ filter, f.isDiscreet (.resource r kind versions) = true) (baseUrl : String) :
    List.Forall₂ (Place.resource r kind versions).Alike (matching st kind baseUrl filter)
      (matching st' kind baseUrl filter) := by
  refine forall₂_filter (R := (Place.resource r kind versions).Alike) ?_ fun v w hvw => ?_
  · rw [List.forall₂_map_left_iff, List.forall₂_map_right_iff, List.forall₂_iff_get]
    refine ⟨(hst kind).length_eq, fun i hi hi' => ?_⟩
    exact shown_alike hr hst (List.get_mem _ _) (List.get_mem _ _) hs hs'
      ((hst kind).get hi hi') baseUrl
  · cases filter with
    | none => rfl
    | some f => exact f.holds_congr (hfilter f rfl) hvw

omit hr in
/-- A discreet key puts the same resources in the same places, but for what is concealed. -/
theorem sorted_alike (h : List.Forall₂ p.Alike vs ws) (hkey : ∀ k' ∈ k, k'.isDiscreet p = true)
    (descending : Bool) :
    List.Forall₂ p.Alike (sorted k descending vs) (sorted k descending ws) := by
  cases k with
  | none => exact h
  | some key =>
    have hdiscreet := hkey key rfl
    have hprecedes (v w v' w' : Json) (hv : p.Alike v v') (hw : p.Alike w w') :
        precedes key descending v' w' = precedes key descending v w := by
      rw [precedes, precedes, key.order_congr hdiscreet hv hw]
    have hreadable : vs.all key.isReadable = ws.all key.isReadable := by
      rw [List.all_eq_not_any_not, List.all_eq_not_any_not]
      exact congrArg not (any_eq_of_forall₂ h fun v w hvw => by
        rw [key.isReadable_congr hdiscreet hvw])
    unfold sorted
    simp only [hreadable]
    split_ifs
    · exact Sorting.placed_forall₂ h hprecedes
    · exact Sorting.arranged_forall₂ h hprecedes

/-- A list with discreet parameters is answered by pages of the same resources, but for what is
concealed, or by the same error. -/
theorem query_alike (hst : Store.Alike r versions st st') (hs : st.UsersSorted)
    (hs' : st'.UsersSorted)
    (hfilter : ∀ f, s.filterOf kind q = .ok (some f) →
      f.isDiscreet (.resource r kind versions) = true)
    (hkey : ∀ k, s.sortKeyOf kind q = .ok (some k) →
      k.isDiscreet (.resource r kind versions) = true) (baseUrl : String) :
    (∃ e, (s.query kind q baseUrl).run st = (.error e, st) ∧
      (s.query kind q baseUrl).run st' = (.error e, st')) ∨
    ∃ page page', (s.query kind q baseUrl).run st = (.ok page, st) ∧
      (s.query kind q baseUrl).run st' = (.ok page', st') ∧
      List.Forall₂ (Place.resource r kind versions).Alike page.resources page'.resources ∧
      page'.total = page.total ∧ page'.startIndex = page.startIndex := by
  rw [run_query, run_query]
  cases hf : s.filterOf kind q with
  | error e => exact .inl ⟨e, rfl, rfl⟩
  | ok filter =>
    cases hk : s.sortKeyOf kind q with
    | error e => exact .inl ⟨e, rfl, rfl⟩
    | ok key =>
      have hmatching := matching_alike hr hst hs hs' filter
        (fun f hmem => hfilter f (by rw [hf, hmem])) baseUrl
      have hsorted := sorted_alike hmatching (k := key)
        (fun k hmem => hkey k (by rw [hk, hmem])) q.isDescending
      refine .inr ⟨_, _, rfl, rfl, ?_, ?_, rfl⟩
      · exact List.forall₂_take _ (List.forall₂_drop _ hsorted)
      · exact congrArg (· % twoTo 32) hsorted.length_eq.symm

end Service

end Roster
