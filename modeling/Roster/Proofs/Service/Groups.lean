import Roster.Proofs.Service.Order
import Roster.Proofs.Service.Page
import Roster.Proofs.Service.Settled
import Roster.Proofs.Service.UserNames

/-! The groups of a user. In every store that changes lead to from the empty one, no user holds any
groups itself, so that a user shows those it is a member of, in the order of their insertion. -/

namespace Roster

/-! ### Users without groups of their own -/

/-- A resource holds nothing by the name of `groups` in whatever case. -/
def Ungrouped (v : Json) : Prop :=
  ∀ key, sameName "groups" key = true → v.get? key = none

namespace Ungrouped

variable {v x : Json} {key : String}

theorem put (h : Ungrouped v) (hk : sameName "groups" key = false) : Ungrouped (v.put key x) := by
  intro other ho
  rw [Json.get?_put_of_ne, h other ho]
  rintro rfl
  rw [ho] at hk
  cases hk

/-- Clients may write no member by that name. -/
theorem readOnly (h : sameName "groups" key = true) :
    Kind.user.isReadOnly key = true ∧ sameName key "schemas" = false := by
  refine ⟨?_, ?_⟩
  · rw [Kind.isReadOnly, Kind.attribute?, ← findAttribute?_congr _ h]
    decide
  · rw [sameName_comm]
    exact Members.not_same_of_same (by decide) h

theorem build {r : Registry} {body : Json} (h : r.build .user body = .ok v) : Ungrouped v := by
  intro key hkey
  obtain ⟨attributes, schemas, w, hw, rfl, -⟩ := Registry.build_eq_ok h
  obtain ⟨hro, hschemas⟩ := readOnly hkey
  have hne : "schemas" ≠ key := fun heq => by simp [← heq] at hschemas
  have hblank : Members.get? Kind.user.blank.root key = none := by
    simp [Kind.blank, Json.root, Json.members?, Members.get?, hne]
  obtain ⟨root, rfl, hroot⟩ := (readOnly_rule hro hschemas none).apply hblank hw
  -- declared schemas are put under another name
  rcases r.declareExtensions_eq .user schemas (.obj root) with heq | ⟨x, heq⟩
  · rw [heq]
    exact hroot
  · rw [heq, Json.get?_put_of_ne hne.symm]
    exact hroot

theorem applyAll {r : Registry} {ops : List Operation} {w : Json} (h : Ungrouped v)
    (ho : v.isObject = true) (ha : Operation.applyAll r .user ops v = .ok w) : Ungrouped w := by
  intro key hkey
  obtain ⟨hro, hschemas⟩ := readOnly hkey
  rw [Operation.applyAll_readOnly hro hschemas ho ha, h key hkey]

end Ungrouped

/-- Of different names, each is held with its value, if it has one. -/
theorem Json.get?_ofPresent {pairs : List (String × Option Json)}
    (hn : (pairs.map (·.1)).Nodup) (key : String) :
    (ofPresent pairs).get? key = (Members.get? pairs key).join := by
  have hkeys : (Members.keys (pairs.filterMap fun m => m.2.map (m.1, ·))).Sublist
      (pairs.map (·.1)) := by
    clear hn
    induction pairs with
    | nil => exact .slnil
    | cons m rest ih =>
      obtain ⟨k, v⟩ := m
      cases v with
      | none => exact ih.cons k
      | some x => exact ih.cons_cons k
  refine (Members.get?_ofList (hn.sublist hkeys) key).trans ?_
  clear hkeys
  induction pairs with
  | nil => rfl
  | cons m rest ih =>
    obtain ⟨k, v⟩ := m
    obtain ⟨hfirst, hrest⟩ := List.nodup_cons.mp hn
    by_cases hk : k = key
    · subst hk
      cases v with
      | some x => simp [Members.get?]
      | none =>
        -- a name without a value does not come again
        have hgone : Members.get? rest k = none := by
          refine Option.eq_none_iff_forall_ne_some.mpr fun x hx => hfirst ?_
          exact List.mem_map.mpr ⟨_, Members.mem_of_get? hx, rfl⟩
        simpa [Members.get?, hgone] using ih hrest
    · cases v <;> simpa [Members.get?, hk] using ih hrest

namespace Service

variable {s : Service} {st st' : Store} {kind : Kind} {id baseUrl : String} {now : Instant}
  {v w group : Json} {actions : List Action}

/-- No stored user holds groups. -/
abbrev AllUngrouped (st : Store) : Prop :=
  st.All fun kind _ v => kind = .user → Ungrouped v

theorem ungrouped_kept (hs : s.AllStamped st) :
    s.Kept st fun kind v => kind = .user → Ungrouped v where
  unassigned _ := ⟨fun x hv hk => (hv hk).put (by decide), fun x hv hk => (hv hk).put (by decide)⟩
  built hb hres hk := by
    subst hk
    obtain rfl := resolveMembers_user hres
    exact .build hb
  patched he hv ha hres hk := by
    subst hk
    obtain rfl := resolveMembers_user hres
    exact (hv rfl).applyAll (hs.each _ _ _ he).isObject ha
  -- members are taken out of groups only
  left _ _ hk := by cases hk

/-- Every change leaves users without groups of their own. -/
theorem perform_ungrouped (hs : s.AllStamped st) (h : AllUngrouped st) (a : Action) :
    AllUngrouped (s.perform st a) :=
  perform_all (ungrouped_kept hs) h a

theorem performAll_ungrouped (s : Service) (actions : List Action) :
    AllUngrouped (s.performAll .empty actions) :=
  (performAll_rule (P := fun st => s.AllStamped st ∧ AllUngrouped st)
    (fun _ a h => ⟨perform_stamped h.1 a, perform_ungrouped h.1 h.2 a⟩)
    ⟨Store.all_empty _, Store.all_empty _⟩ actions).2

/-! ### Memberships -/

/-- A group has a member that names a resource by its `value`. -/
def InGroup (id : String) (group : Json) : Prop :=
  ∃ items, group.member? "members" = some (.arr items) ∧
    ∃ m ∈ items, m.member? "value" = some (.str id)

theorem string?_eq_some {text : String} : v.string? = some text ↔ v = .str text := by
  cases v <;> simp [Json.string?]

theorem items?_eq_some {items : List Json} : v.items? = some items ↔ v = .arr items := by
  cases v <;> simp [Json.items?]

theorem memberId?_eq_some : memberId? v = some id ↔ v.member? "value" = some (.str id) := by
  rw [memberId?, Option.bind_eq_some_iff]
  constructor
  · rintro ⟨x, hx, hid⟩
    rw [hx, string?_eq_some.mp hid]
  · intro h
    exact ⟨.str id, h, rfl⟩

theorem hasMember_iff : hasMember id group = true ↔ InGroup id group := by
  simp only [hasMember, Option.any_eq_true, Option.bind_eq_some_iff, List.any_eq_true, beq_iff_eq,
    memberId?_eq_some, InGroup]
  constructor
  · rintro ⟨items, ⟨x, hx, hitems⟩, h⟩
    exact ⟨items, by rw [hx, items?_eq_some.mp hitems], h⟩
  · rintro ⟨items, hx, h⟩
    exact ⟨items, ⟨_, hx, rfl⟩, h⟩

instance (id : String) (group : Json) : Decidable (InGroup id group) :=
  decidable_of_iff _ hasMember_iff

/-- What a user shows of a group: the identifier and the name of the group. -/
structure Membership (group entry : Json) : Prop where
  value : entry.get? "value" = group.get? "id"
  display : entry.get? "display" = group.member? "displayName"

theorem membership_of_stamped (h : s.Stamped id group) (baseUrl : String) :
    ∃ entry, membership? baseUrl group = some entry ∧ Membership group entry := by
  refine ⟨_, by rw [membership?, h.identifier?, Option.map_some], ?_, ?_⟩
  · rw [h.identifier]
    exact Json.get?_ofPresent (by simp) "value"
  · exact Json.get?_ofPresent (by simp) "display"

/-- A user is shown with the given groups, or without any if there are none. -/
structure ShowsGroups (groups : List Json) (v shown : Json) : Prop where
  none : groups = [] → Ungrouped shown
  some : groups ≠ [] → ∃ entries, shown.get? "groups" = some (.arr entries) ∧
    List.Forall₂ Membership groups entries
  others : ∀ key, key ≠ "groups" → shown.get? key = v.get? key

theorem shown_groups (hs : s.AllStamped st) (hu : AllUngrouped st)
    (hv : st.get? .user id = some v) (baseUrl : String) :
    ShowsGroups ((st.list .group none).filter (InGroup id)) v (shown st .user baseUrl v) := by
  have hstamped := hs.each _ _ _ hv
  have hin : (st.list .group none).filter (hasMember id) =
      (st.list .group none).filter (InGroup id) :=
    List.filter_congr fun g _ => by rw [Bool.eq_iff_iff, hasMember_iff, decide_eq_true_iff]
  have hshown : shown st .user baseUrl v =
      if (((st.list .group none).filter (InGroup id)).filterMap (membership? baseUrl)).isEmpty
      then v else v.put "groups" (.arr
        (((st.list .group none).filter (InGroup id)).filterMap (membership? baseUrl))) := by
    simp only [shown, hstamped.identifier?, hin]
  -- every group that is listed has an identifier, so that there is an entry of it
  have hentries : List.Forall₂ Membership ((st.list .group none).filter (InGroup id))
      (((st.list .group none).filter (InGroup id)).filterMap (membership? baseUrl)) := by
    have hall : ∀ g ∈ (st.list .group none).filter (InGroup id),
        ∃ entry, membership? baseUrl g = some entry ∧ Membership g entry := by
      intro g hg
      obtain ⟨gid, hgid⟩ := (Store.mem_list hs.sorted).mp (List.mem_of_mem_filter hg)
      exact membership_of_stamped (hs.each _ _ _ hgid) baseUrl
    generalize (st.list .group none).filter (InGroup id) = groups at hall
    induction groups with
    | nil => exact .nil
    | cons g rest ih =>
      obtain ⟨⟨entry, hentry, hm⟩, hrest⟩ := List.forall_mem_cons.mp hall
      rw [List.filterMap_cons_some hentry]
      exact .cons hm (ih hrest)
  rw [hshown]
  generalize (st.list .group none).filter (InGroup id) = groups at hentries
  generalize groups.filterMap (membership? baseUrl) = entries at hentries
  cases hentries with
  | nil =>
    exact ⟨fun _ => hu.each _ _ _ hv rfl, fun hne => absurd rfl hne, fun _ _ => rfl⟩
  | cons hfirst hrest =>
    refine ⟨fun hnil => (by cases hnil), fun _ => ⟨_, Json.get?_put_self hstamped.isObject,
      .cons hfirst hrest⟩, fun key hkey => Json.get?_put_of_ne hkey⟩

/-! ### Runs -/

/-- The groups that a resource is in, in the order of their insertion. -/
def groupsOf (s : Service) (actions : List Action) (id : String) : List Json :=
  ((s.inserted .group .empty [] actions).filterMap
    ((s.performAll .empty actions).get? .group)).filter (InGroup id)

/-- After changes from the empty store on, no user holds groups; each is shown with the groups that
it is in, when it is read on its own and in every list. -/
theorem performAll_groups (s : Service) (actions : List Action) :
    (∀ id v, (s.performAll .empty actions).get? .user id = some v → Ungrouped v) ∧
    (∀ id v, (s.performAll .empty actions).get? .user id = some v → ∀ baseUrl, ∃ shown,
      (Service.get .user id baseUrl).run (s.performAll .empty actions) =
        (.ok shown, s.performAll .empty actions) ∧ ShowsGroups (s.groupsOf actions id) v shown) ∧
    ∀ q baseUrl page,
      ((s.query .user q baseUrl).run (s.performAll .empty actions)).1 = .ok page →
      ∀ shown ∈ page.resources, ∃ id v, (s.performAll .empty actions).get? .user id = some v ∧
        ShowsGroups (s.groupsOf actions id) v shown := by
  have hstamped := performAll_stamped (s := s) (Store.all_empty _) actions
  have hungrouped := performAll_ungrouped s actions
  have hgroups : ∀ id, s.groupsOf actions id =
      ((s.performAll .empty actions).list .group none).filter (InGroup id) := by
    intro id
    rw [groupsOf, performAll_list]
  refine ⟨fun id v hv => hungrouped.each _ _ _ hv rfl, fun id v hv baseUrl => ?_,
    fun q baseUrl page hpage w hw => ?_⟩
  · refine ⟨_, run_get hv baseUrl, ?_⟩
    rw [hgroups]
    exact shown_groups hstamped hungrouped hv baseUrl
  · obtain ⟨id, v, hv, rfl⟩ := query_shown hstamped.sorted hpage hw
    refine ⟨id, v, hv, ?_⟩
    rw [hgroups]
    exact shown_groups hstamped hungrouped hv baseUrl

/-- A user, and two groups that it is a member of, the later of which has the lesser identifier. -/
def guildActions : List Action :=
  [ .create .user (.obj [("schemas", .arr [.str Urn.user]), ("userName", .str "bj")]) "" "u1"
      default,
    .create .group (.obj [("displayName", .str "Staff"),
      ("members", .arr [.obj [("value", .str "u1")]]), ("schemas", .arr [.str Urn.group])]) "" "g2"
      default,
    .create .group (.obj [("displayName", .str "Guides"),
      ("members", .arr [.obj [("value", .str "u1")]]), ("schemas", .arr [.str Urn.group])]) "" "g1"
      default ]

theorem performAll_groups_guild :
    ((spelledService.groupsOf guildActions "u1").map fun g => g.get? "id") =
        [some (.str "g2"), some (.str "g1")] ∧
      ∃ v shown, (spelledService.performAll .empty guildActions).get? .user "u1" = some v ∧
        Ungrouped v ∧
        (Service.get .user "u1" "").run (spelledService.performAll .empty guildActions) =
          (.ok shown, spelledService.performAll .empty guildActions) ∧
        ShowsGroups (spelledService.groupsOf guildActions "u1") v shown := by
  obtain ⟨hungrouped, hget, -⟩ := performAll_groups spelledService guildActions
  have hstored :
      ((spelledService.performAll .empty guildActions).get? .user "u1").isSome = true := by
    decide +kernel
  obtain ⟨v, hv⟩ := Option.isSome_iff_exists.mp hstored
  obtain ⟨shown, hrun, hshows⟩ := hget "u1" v hv ""
  exact ⟨by decide +kernel, v, shown, hv, hungrouped "u1" v hv, hrun, hshows⟩

end Service

end Roster
