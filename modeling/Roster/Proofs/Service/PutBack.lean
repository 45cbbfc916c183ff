import Roster.Proofs.Service.Membership
import Roster.Proofs.Service.Settled
import Roster.Proofs.Service.UserNames
import Roster.Proofs.Settings
import Roster.Service.Query

/-! A resource put back as it is shown. In every store that changes lead to from the empty one, the
body that a client is shown replaces its resource by the same one, and the store stays as it is. -/

namespace Roster

/-- A resource whose body describes all of it: it holds no password and no empty extension, no list
with more than one element marked as primary, and it declares the required extensions. -/
structure Registry.Describable (r : Registry) (kind : Kind) (v : Json) : Prop where
  noPassword : v.get? "password" = none
  filled : ∀ e ∈ r.extensionsFor kind, v.get? e.schema.id ≠ some (.obj [])
  onePrimary : ∀ m ∈ v.root, m.2.OneMarked
  declared : ∀ urn ∈ r.requiredExtensions kind, ∃ items,
    v.get? "schemas" = some (.arr items) ∧ items.any (Json.isUrnOf urn) = true

/-- What makes a resource describable, as tests on its value. -/
theorem Registry.describable_iff {r : Registry} {kind : Kind} {v : Json} :
    r.Describable kind v ↔ v.get? "password" = none ∧
      (∀ e ∈ r.extensionsFor kind, v.get? e.schema.id ≠ some (.obj [])) ∧
      (∀ m ∈ v.root, m.2.OneMarked) ∧
      ∀ urn ∈ r.requiredExtensions kind,
        (((v.get? "schemas").bind Json.items?).any fun items =>
          items.any (Json.isUrnOf urn)) = true := by
  have hlist (urn : String) : (∃ items, v.get? "schemas" = some (.arr items) ∧
      items.any (Json.isUrnOf urn) = true) ↔
      (((v.get? "schemas").bind Json.items?).any fun items =>
        items.any (Json.isUrnOf urn)) = true := by
    cases v.get? "schemas" with
    | none => simp
    | some x => cases x <;> simp [Json.items?]
  constructor
  · intro h
    exact ⟨h.noPassword, h.filled, h.onePrimary,
      fun urn hurn => (hlist urn).mp (h.declared urn hurn)⟩
  · rintro ⟨hp, hf, ho, hd⟩
    exact ⟨hp, hf, ho, fun urn hurn => (hlist urn).mpr (hd urn hurn)⟩

instance (r : Registry) (kind : Kind) (v : Json) : Decidable (r.Describable kind v) :=
  decidable_of_iff _ Registry.describable_iff.symm

/-! ### The body that is shown -/

/-- What a body is made of: its list of schemas, and the members that a client may assign. -/
theorem Registry.build_congr {r : Registry} {kind : Kind} {body root : Members Json}
    (hschemas : Members.get? body "schemas" = Members.get? root "schemas")
    (hassign : assignable kind body = assignable kind root) :
    r.build kind (.obj body) = r.build kind (.obj root) := by
  simp only [build, hschemas, hassign]

theorem Registry.assignable_congr {kind : Kind} {body root : Members Json}
    (hb : Members.Sorted body) (hr : Members.Sorted root)
    (h : ∀ key, kind.isReadOnly key = false → Members.get? body key = Members.get? root key) :
    assignable kind body = assignable kind root := by
  have sorted {ms : Members Json} (hs : Members.Sorted ms) :
      Members.Sorted (assignable kind ms) :=
    Members.sorted_filter _ (Members.sorted_erase "schemas" hs)
  refine Members.ext_get? (sorted hb) (sorted hr) fun key => ?_
  by_cases hkey : key = "schemas"
  · subst hkey
    have gone (ms : Members Json) : Members.get? (assignable kind ms) "schemas" = none := by
      rw [assignable, Members.get?_filter (fun name => !kind.isReadOnly name),
        Members.get?_erase_self, ite_self]
    rw [gone, gone]
  · rw [get?_assignable key hkey, get?_assignable key hkey]
    cases hro : kind.isReadOnly key with
    | true => rfl
    | false => exact h key hro

/-- A user shows its groups, and other resources are shown as they are. -/
inductive ShownAs (kind : Kind) (v : Json) : Json → Prop where
  | self : ShownAs kind v v
  | grouped (user : kind = .user) (x : Json) : ShownAs kind v (v.put "groups" x)

namespace Service

variable {s : Service} {st : Store} {kind : Kind} {id baseUrl : String} {v : Json}

theorem decorate_run (kind : Kind) (v : Json) (baseUrl : String) (st : Store) :
    ∃ shown, (decorate kind v baseUrl).run st = (.ok shown, st) ∧ ShownAs kind v shown := by
  unfold decorate
  split
  · rename_i id _
    rw [Task.run_bind, Task.run_list]
    dsimp only
    split_ifs
    · exact ⟨v, rfl, .self⟩
    · exact ⟨_, rfl, .grouped rfl _⟩
  · exact ⟨v, rfl, .self⟩

/-- The attribute under which a user shows its groups. -/
theorem groups_attribute : (∃ a ∈ Kind.user.attributes, a.name = "groups") ∧
    Kind.user.isReadOnly "groups" = true := by
  refine ⟨?_, by decide⟩
  have hany : (Kind.user.attributes.any fun a => a.name == "groups") = true := by decide
  simpa using hany

end Service

variable {kind : Kind} {root : Members Json}

/-- What is shown of a canonical resource: its members, and for a user its groups. -/
theorem ShownAs.members {r : Registry} {shown : Json} (hc : Canonical r kind root)
    (h : ShownAs kind (.obj root) shown) : ∃ ms, shown = .obj ms ∧ Members.Sorted ms ∧
      (∀ m ∈ ms, Named r kind m.1 ∧ (m ∈ root ∨ kind.isReadOnly m.1 = true)) ∧
      ∀ key, kind.isReadOnly key = false → Members.get? ms key = Members.get? root key := by
  cases h with
  | self =>
    exact ⟨root, rfl, hc.sorted, fun m hm => ⟨(hc.fits m hm).named, .inl hm⟩, fun _ _ => rfl⟩
  | grouped hkind x =>
    subst hkind
    obtain ⟨⟨a, ha, hname⟩, hro⟩ := Service.groups_attribute
    refine ⟨_, rfl, Members.sorted_insert _ _ hc.sorted, fun m hm => ?_, fun key hkey => ?_⟩
    · rcases (Members.mem_insert hc.sorted).mp hm with rfl | ⟨hm, -⟩
      · exact ⟨hname ▸ .defined ha, .inr hro⟩
      · exact ⟨(hc.fits m hm).named, .inl hm⟩
    · refine Members.get?_insert_of_ne _ _ ?_
      rintro rfl
      rw [hro] at hkey
      cases hkey

namespace ProtocolSettings

/-- A resource that describes itself is shown as a whole. -/
theorem shown_whole (p : ProtocolSettings) {shown : Json} (hc : Canonical p.registry kind root)
    (hd : p.registry.Describable kind (.obj root)) (h : ShownAs kind (.obj root) shown) :
    Projection.whole.apply p.registry kind shown = shown := by
  obtain ⟨ms, rfl, -, hnamed, -⟩ := h.members hc
  refine Projection.whole_apply (fun m hm s hs => ?_) fun m hm a ha => ?_
  · -- an extension is held as a checked object that is not empty
    have hreg : Registered p.registry kind s :=
      ⟨m.1, hs, Registry.extension?_isUrn p.registry_wellNamed hs⟩
    obtain ⟨e, hext, rfl, hsame⟩ := Registry.extension?_some hs
    have hname : m.1 = e.schema.id :=
      Named.spelled (.registered hreg) (hnamed m hm).1 hsame
    refine ⟨?_, ?_⟩
    · rw [p.registered_eq hreg]
      exact fun a ha => (enterpriseUser_attributes a ha).2
    · have hmem : m ∈ root := by
        refine (hnamed m hm).2.resolve_right fun hro => ?_
        rw [hname, registered_not_readOnly hreg] at hro
        cases hro
      obtain ⟨o, ho, -⟩ := (hc.fits m hmem).object hreg hname
      refine ⟨o, ho, ?_⟩
      rintro rfl
      have hheld : Members.get? root e.schema.id = some (.obj []) :=
        Members.get?_of_mem hc.sorted (hname ▸ ho ▸ hmem)
      exact hd.filled e hext hheld
  · -- the password is not there
    have hmem : a ∈ kind.attributes := findAttribute?_mem ha
    have hname : m.1 = a.name :=
      Named.spelled (.defined hmem) (hnamed m hm).1 (findAttribute?_sameName ha)
    refine attributes_shown kind a hmem fun hpassword => ?_
    have hheld : m ∈ root := by
      refine (hnamed m hm).2.resolve_right fun hro => ?_
      have hnot : kind.isReadOnly "password" = false := by cases kind <;> decide
      rw [hname, hpassword, hnot] at hro
      cases hro
    have hget : Members.get? root "password" = some m.2 :=
      Members.get?_of_mem hc.sorted (hpassword ▸ hname ▸ hheld)
    have hnone : Members.get? root "password" = none := hd.noPassword
    rw [hget] at hnone
    cases hnone

/-- The body that is shown describes the resource that it shows. -/
theorem build_shown (p : ProtocolSettings) {shown : Json} (hc : Canonical p.registry kind root)
    (hdeclares : Declares p.registry kind root) (hd : p.registry.Describable kind (.obj root))
    (h : ShownAs kind (.obj root) shown) (version : ProtocolVersion) :
    p.registry.build kind (version.decode kind.coreSchema.id
        (version.encode (Projection.whole.apply p.registry kind shown))) =
      p.registry.build kind (.obj root) := by
  rw [p.shown_whole hc hd h]
  obtain ⟨ms, rfl, hs, hnamed, hget⟩ := h.members hc
  have hnotMeta {key : String} (hro : kind.isReadOnly key = false) : key ≠ "meta" := by
    rintro rfl
    obtain ⟨-, -, -, hmeta⟩ := assigned_attribute kind "meta" (by simp)
    rw [hmeta] at hro
    cases hro
  have hschemas : kind.isReadOnly "schemas" = false := schemas_not_readOnly kind
  -- the list of schemas is one of two, which all versions can carry
  have hlist : ∀ x, Members.get? ms "schemas" = some x →
      ProtocolVersion.currentMember kind.coreSchema.id "schemas"
        (ProtocolVersion.legacyMember "schemas" x).2 = ("schemas", x) := by
    intro x hx
    rw [hget _ hschemas] at hx
    cases hdeclares with
    | core items _ =>
      cases items.symm.trans hx
      exact ProtocolVersion.schemas_restored kind (.inl rfl)
    | extended t ht items =>
      cases items.symm.trans hx
      rw [p.registered_eq ht]
      exact ProtocolVersion.schemas_restored kind (.inr rfl)
  obtain ⟨body, hbody, hsorted, hkept⟩ := ProtocolVersion.decode_encode version hs
    (fun m hm => p.memberName_named (hnamed m hm).1) hlist
  rw [hbody]
  refine Registry.build_congr ?_ (Registry.assignable_congr hsorted hc.sorted fun key hro => ?_)
  · rw [hkept _ (hnotMeta hschemas), hget _ hschemas]
  · rw [hkept key (hnotMeta hro), hget key hro]

end ProtocolSettings

namespace Service

variable {s : Service} {st : Store} {id baseUrl : String} {v : Json} {now : Instant}

/-! ### The work under the lock -/

theorem findMember_run (h : st.Holds id) :
    ∃ found, (findMember id).run st = (.ok found, st) := by
  obtain ⟨kind, hkind⟩ := h
  unfold findMember
  rw [Task.run_bind, Task.run_get]
  cases huser : st.get? .user id with
  | some user => exact ⟨(.user, user), rfl⟩
  | none =>
    cases kind with
    | user => simp [huser] at hkind
    | group =>
      obtain ⟨group, hgroup⟩ := Option.isSome_iff_exists.mp hkind
      refine ⟨(.group, group), ?_⟩
      simp only [Task.run_bind, Task.run_get, hgroup]
      rfl

theorem putNew_of_isSome {ms : Members Json} {key : String} (x : Json)
    (h : (ms.get? key).isSome = true) : putNew ms key x = ms := by
  rw [putNew, if_pos h]

/-- Completing a complete member changes nothing. -/
theorem completeMember_same {ms : Members Json} (hs : Members.Sorted ms)
    (hvalue : Members.get? ms "value" = some (.str id)) (hc : CompleteMember (.obj ms))
    (kind : Kind) (resource : Json) :
    completeMember baseUrl (.obj ms) id kind resource = .obj ms := by
  have held {name : String} (hn : name ∈ memberNames) : (Members.get? ms name).isSome = true :=
    hc name hn
  have hmembers : putNew (putNew (Members.insert ms "value" (.str id)) "type" (.str kind.name))
      "$ref" (.str (location baseUrl kind id)) = ms := by
    rw [Members.insert_of_get? hs hvalue, putNew_of_isSome _ (held (by decide)),
      putNew_of_isSome _ (held (by decide))]
  unfold completeMember
  simp only [Json.members?, Option.getD_some, hmembers]
  split
  · rw [putNew_of_isSome _ (held (by decide))]
  · rfl

/-- Complete members that name stored resources, each another one, are resolved to themselves. -/
theorem resolveEntries_same {a : Attribute} (ha : IsMembers a) {done entries : List Json}
    (hn : NamesEach st.Holds (done ++ entries))
    (he : ∀ e ∈ entries, checkSingle a e = .ok e ∧ CompleteMember e) :
    (resolveEntries baseUrl done entries).run st = (.ok (done ++ entries), st) := by
  induction entries generalizing done with
  | nil =>
    rw [List.append_nil]
    rfl
  | cons entry rest ih =>
    obtain ⟨⟨hchecked, hcomplete⟩, hrest⟩ := List.forall_mem_cons.mp he
    obtain ⟨id, hvalue, hholds⟩ := hn.named entry (by simp)
    obtain ⟨found, hfound⟩ := findMember_run hholds
    obtain ⟨ms, rfl, hms⟩ := ha.object hchecked
    -- no member in front names the same
    have hnew : (done.any fun m => memberId? m == some id) = false := by
      rw [List.any_eq_false]
      intro m hm hsame
      obtain ⟨other, hother, -⟩ := hn.named m (by simp [hm])
      rw [memberId?_of_get? hother, beq_iff_eq] at hsame
      cases hsame
      have hdistinct := (List.pairwise_append.mp hn.distinct).2.2 m hm _ List.mem_cons_self
      exact hdistinct (hother.trans hvalue.symm)
    have hsame : completeMember baseUrl (.obj ms) id found.1 found.2 = .obj ms :=
      completeMember_same hms.sorted hvalue hcomplete found.1 found.2
    have hbehind : (resolveEntries baseUrl (done ++ [.obj ms]) rest).run st =
        (.ok (done ++ [.obj ms] ++ rest), st) :=
      ih (by rwa [List.append_assoc, List.singleton_append]) hrest
    rw [List.append_assoc, List.singleton_append] at hbehind
    unfold resolveEntries
    simp only [memberId?_of_get? hvalue, hnew, Bool.false_eq_true, if_false, Task.run_bind,
      hfound, hsame, hbehind]

/-- A settled group is resolved to itself. -/
theorem resolveMembers_same {r : Registry} {kind : Kind} {built : Members Json}
    (hv : r.Settled kind v) (hr : kind = .group → Referential st.Holds v)
    (hsorted : Members.Sorted built)
    (hmembers : Members.get? built "members" = v.get? "members") :
    (resolveMembers kind (.obj built) baseUrl).run st = (.ok (.obj built), st) := by
  obtain ⟨a, ha⟩ := exists_isMembers
  unfold resolveMembers
  split
  · rename_i entries hentries
    have hheld : v.get? "members" = some (.arr entries) := hmembers.symm.trans hentries
    have hrun : (resolveEntries baseUrl [] entries).run st = (.ok ([] ++ entries), st) :=
      resolveEntries_same ha ((hr rfl).resolved entries hheld) fun e he =>
        ⟨hv.tidy.members ha hheld e he, hv.complete rfl entries hheld e he⟩
    have hput : (Json.obj built).put "members" (.arr ([] ++ entries)) = .obj built :=
      congrArg Json.obj (Members.insert_of_get? hsorted hentries)
    simp only [Task.run_bind, hrun, hput]
    rfl
  · rfl

/-- The name of a stored user is free for the user itself. -/
theorem checkUnique_own (hs : ∀ k, Members.Sorted (st.entries k)) (hu : st.UserNames)
    {kind : Kind} (hv : st.get? kind id = some v) {built : Members Json}
    (hname : Members.get? built "userName" = v.get? "userName") :
    (checkUnique kind (.obj built) (some id)).run st = (.ok (), st) := by
  cases kind with
  | group => rfl
  | user =>
    obtain ⟨name, hnamed⟩ := hu.named id v hv
    have hmember : (Json.obj built).member? "userName" = some (.str name) :=
      Members.find?_of_get? (hname.trans hnamed.given)
    -- the search passes over the user itself, and no other has the name
    have hfree : st.find? ⟨.user, "userName", name, false, some id⟩ = none := by
      refine List.findSome?_eq_none_iff.mpr fun m hm => ?_
      obtain ⟨other, e⟩ := m
      have hstored : st.get? .user other = some e.resource := by
        simp [Store.get?, Members.get?_of_mem (hs .user) hm]
      obtain ⟨otherName, hother⟩ := hu.named other e.resource hstored
      by_cases hid : id = other
      · simp [Probe.finds, hid]
      · have hapart := hu.apart other id _ v _ _ hstored hv hother.given hnamed.given (Ne.symm hid)
        simp [Probe.finds, hother.member?, Json.string?, hapart]
    simp only [checkUnique, hmember, Option.bind_some, Json.string?, Task.run_bind, Task.run_find,
      hfree]
    rfl

/-- What the server has assigned, put into the rest of a resource, makes it whole. -/
theorem keepAssigned_same {root built : Members Json} (hr : Members.Sorted root)
    (hb : Members.Sorted built) {x y : Json} (hid : Members.get? root "id" = some x)
    (hmeta : Members.get? root "meta" = some y)
    (hget : ∀ key, Members.get? built key =
      if key ∈ ["id", "meta"] then none else Members.get? root key) :
    keepAssigned (.obj root) (.obj built) = .obj root := by
  have hput : keepAssigned (.obj root) (.obj built) =
      .obj (Members.insert (Members.insert built "id" x) "meta" y) := by
    have hx : (Json.obj root).get? "id" = some x := hid
    have hy : (Json.obj root).get? "meta" = some y := hmeta
    simp [keepAssigned, hx, hy, Json.put]
  rw [hput]
  refine congrArg Json.obj (Members.ext_get? ?_ hr fun key => ?_)
  · exact Members.sorted_insert _ _ (Members.sorted_insert _ _ hb)
  · by_cases hm : key = "meta"
    · rw [hm, Members.get?_insert_self, hmeta]
    · rw [Members.get?_insert_of_ne _ _ hm]
      by_cases hi : key = "id"
      · rw [hi, Members.get?_insert_self, hid]
      · rw [Members.get?_insert_of_ne _ _ hi, hget key, if_neg (by simp [hi, hm])]

/-- A resource is shown, and the body that describes it replaces it by itself. -/
theorem replace_same {kind : Kind} {root built : Members Json} {body : Json}
    (hlinked : s.Linked st) (hu : st.UserNames) (hv : st.get? kind id = some (.obj root))
    (hsettled : s.registry.Settled kind (.obj root))
    (hbuild : s.registry.build kind body = .ok (.obj built)) (hb : Members.Sorted built)
    (hget : ∀ key, Members.get? built key =
      if key ∈ ["id", "meta"] then none else Members.get? root key)
    {shown : Json} (hshown : (decorate kind (.obj root) baseUrl).run st = (.ok shown, st)) :
    (s.replace kind id body baseUrl now).task.run st = (.ok shown, st) := by
  have hstamped := hlinked.stamped.each _ _ _ hv
  obtain ⟨held, hmeta⟩ := hstamped.metadata
  have hfetch : (Task.fetch kind id).run st = (.ok (.obj root), st) := by
    rw [Task.fetch, Task.run_bind, Task.run_get, hv]
    rfl
  have hunique : (checkUnique kind (.obj built) (some id)).run st = (.ok (), st) :=
    checkUnique_own hlinked.stamped.sorted hu hv ((hget "userName").trans (if_neg (by decide)))
  have hresolve : (resolveMembers kind (.obj built) baseUrl).run st = (.ok (.obj built), st) :=
    resolveMembers_same hsettled (fun hkind => hlinked.referential id _ (hkind ▸ hv)) hb
      ((hget "members").trans (if_neg (by decide)))
  have hkeep : keepAssigned (.obj root) (.obj built) = .obj root :=
    keepAssigned_same hsettled.tidy.canonical.sorted hb hstamped.identifier hmeta hget
  -- the version that the resource states is that of what would be written
  have hpersist :
      (s.persist kind id (.obj root) (.obj root) now).run st = (.ok (.obj root), st) := by
    rcases s.persist_run kind id (.obj root) (.obj root) now st with ⟨-, hrun⟩ | ⟨hne, -⟩
    · exact hrun
    · exact absurd hstamped.stated hne
  rw [replace_eq, hbuild]
  change Task.run (_ >>= _) st = _
  simp only [Task.run_bind, hfetch, settle, hunique, hresolve, hkeep, hpersist, hshown]

end Service

/-! ### Runs -/

open Service in
/-- A resource that describes itself, in a store that changes lead to from the empty one, is shown
to a client, and the body that the client is shown, in either version of the protocol, replaces the
resource by the same one: the answer is what was shown, and the store is as it was. -/
theorem Service.replace_shown (p : ProtocolSettings) {actions : List Action}
    (ht : (ofSettings p).AlwaysTellsApart .empty actions) {kind : Kind} {id : String} {v : Json}
    (hv : ((ofSettings p).performAll .empty actions).get? kind id = some v)
    (hd : p.registry.Describable kind v) (version : ProtocolVersion) (baseUrl : String)
    (now : Instant) :
    ∃ projection shown,
      (ofSettings p).projectionOf kind none none = .ok projection ∧
      (Service.get kind id baseUrl).run ((ofSettings p).performAll .empty actions) =
        (.ok shown, (ofSettings p).performAll .empty actions) ∧
      ((ofSettings p).replace kind id (version.decode kind.coreSchema.id
          (version.encode (projection.apply p.registry kind shown))) baseUrl now).task.run
          ((ofSettings p).performAll .empty actions) =
        (.ok shown, (ofSettings p).performAll .empty actions) := by
  have hsettled := (performAll_settled (s := ofSettings p) p.registry_wellNamed p.registry_single
    (Store.all_empty _) actions).each kind id v hv
  have hlinked := performAll_linked_of (ofSettings p).linked_empty ht
  have hnames := performAll_userNames_of (s := ofSettings p) userNames_empty actions
  generalize (ofSettings p).performAll .empty actions = st at hv hlinked hnames ⊢
  obtain ⟨root, rfl⟩ := Json.isObject_iff.mp hsettled.tidy.isObject
  have hcanonical : Canonical p.registry kind root := hsettled.tidy.canonical
  obtain ⟨shown, hshown, hform⟩ := decorate_run kind (.obj root) baseUrl st
  obtain ⟨built, hbuild, hsorted, hget⟩ := Registry.build_canonical p.registry_wellNamed
    (p.registry_addressable kind) hcanonical hsettled.tidy.declares hsettled.tidy.required
    hd.onePrimary hd.declared
  have hbody := (p.build_shown hcanonical hsettled.tidy.declares hd hform version).trans hbuild
  refine ⟨Projection.whole, shown, rfl, ?_,
    replace_same hlinked hnames hv hsettled hbody hsorted hget hshown⟩
  simp only [Service.get, Task.fetch, Task.run_bind, Task.run_get, hv]
  exact hshown

/-- A user with a department, and a group that it is a member of. -/
def Service.staffActions : List Service.Action :=
  [ .create .user (.obj [("schemas", .arr [.str Urn.user, .str Urn.enterpriseUser]),
      (Urn.enterpriseUser, .obj [("department", .str "Tours")]), ("userName", .str "bj")]) "" "u1"
      default,
    .create .group (.obj [("displayName", .str "Staff"),
      ("members", .arr [.obj [("value", .str "u1")]]), ("schemas", .arr [.str Urn.group])]) "" "g1"
      default ]

open Service in
theorem Service.replace_shown_staff :
    ∃ v, ((ofSettings .standard).performAll .empty staffActions).get? .user "u1" = some v ∧
      ProtocolSettings.standard.registry.Describable .user v ∧
      (ofSettings .standard).AlwaysTellsApart .empty staffActions ∧
      ∃ projection shown,
        (ofSettings .standard).projectionOf .user none none = .ok projection ∧
        (Service.get .user "u1" "").run ((ofSettings .standard).performAll .empty staffActions) =
          (.ok shown, (ofSettings .standard).performAll .empty staffActions) ∧
        ((ofSettings .standard).replace .user "u1" (ProtocolVersion.v1.decode
            Kind.user.coreSchema.id (ProtocolVersion.v1.encode
              (projection.apply ProtocolSettings.standard.registry .user shown)))
            "" default).task.run ((ofSettings .standard).performAll .empty staffActions) =
          (.ok shown, (ofSettings .standard).performAll .empty staffActions) := by
  have hstored : (((ofSettings .standard).performAll .empty staffActions).get? .user "u1").any
      (fun v => ProtocolSettings.standard.registry.Describable .user v) = true := by
    decide +kernel
  obtain ⟨v, hv, hd⟩ := (Option.any_eq_true _ _).mp hstored
  have hd : ProtocolSettings.standard.registry.Describable .user v := of_decide_eq_true hd
  have ht : (ofSettings .standard).AlwaysTellsApart .empty staffActions :=
    ⟨trivial, trivial, trivial⟩
  exact ⟨v, hv, hd, ht, replace_shown .standard ht hv hd .v1 "" default⟩

end Roster
