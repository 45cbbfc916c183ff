import Roster.Proofs.Instant
import Roster.Proofs.Query.Typed
import Roster.Proofs.Service.Page
import Roster.Proofs.Service.Settled
import Roster.Proofs.Settings

/-! The metadata that the server writes, and what a list can be sorted by. In every store that
changes lead to from the empty one, the metadata of a resource hold texts under names of their own,
the times among them are readings of the clock that the changes have been given, and the resources
are typed as they are shown, so that each sort key can read them. -/

namespace Roster

namespace Service

variable {s : Service} {st st' : Store} {kind : Kind} {id baseUrl : String} {now : Instant}
  {v w : Json} {P : Instant → Prop}

/-! ### Dated resources -/

/-- The names in the metadata that have times behind them. -/
def timeNames : List String := ["created", "lastModified"]

/-- The names of the other texts in the metadata. -/
def plainNames : List String := ["resourceType", "location", "version"]

/-- A member of the metadata is a text; under the name of a time it is that of an instant of some
kind. -/
inductive DatedMember (P : Instant → Prop) : String × Json → Prop
  | plain {name : String} (text : String) (mem : name ∈ plainNames) :
      DatedMember P (name, .str text)
  | time {name : String} {now : Instant} (mem : name ∈ timeNames) (reading : P now) :
      DatedMember P (name, .str now.toText)

/-- A resource has metadata, all of whose members are such. -/
def Dated (P : Instant → Prop) (v : Json) : Prop :=
  ∃ held, v.get? "meta" = some (.obj held) ∧ ∀ m ∈ held, DatedMember P m

theorem Dated.congr (h : Dated P v) (hm : w.get? "meta" = v.get? "meta") : Dated P w := by
  obtain ⟨held, hheld, hdated⟩ := h
  exact ⟨held, hm.trans hheld, hdated⟩

theorem dated_putMeta (h : Dated P v) {members : List (String × Json)}
    (hm : ∀ m ∈ members, DatedMember P m) : Dated P (putMeta v members) := by
  obtain ⟨held, hheld, hdated⟩ := h
  refine ⟨Members.merge held members, ?_, ?_⟩
  · rw [putMeta_eq hheld, Json.get?_put_self (Json.isObject_of_get? hheld)]
  · exact List.foldlRecOn (motive := fun ms : Members Json => ∀ m ∈ ms, DatedMember P m)
      members _ hdated fun ms hms m hmem => Members.forall_insert hms (hm m hmem)

theorem dated_restamped (h : Dated P v) (hnow : P now) : Dated P (s.restamped v now) :=
  dated_putMeta h (List.forall_mem_cons.mpr ⟨.time (by decide) hnow,
    List.forall_mem_cons.mpr ⟨.plain _ (by decide), List.forall_mem_nil _⟩⟩)

theorem dated_stamp (s : Service) (kind : Kind) (ho : v.isObject = true) (baseUrl id : String)
    (hnow : P now) : Dated P (s.stamp kind v baseUrl id now) := by
  have hmembers : ∀ m ∈ [("resourceType", Json.str kind.name), ("created", .str now.toText),
      ("lastModified", .str now.toText), ("location", .str (location baseUrl kind id))],
      DatedMember P m := by
    simp only [List.forall_mem_cons]
    exact ⟨.plain _ (by decide), .time (by decide) hnow, .time (by decide) hnow,
      .plain _ (by decide), List.forall_mem_nil _⟩
  have hfirst : Dated P ((v.put "id" (.str id)).put "meta"
      ((Meta.createdAt kind.name now).withLocation (location baseUrl kind id)).toJson) :=
    ⟨_, Json.get?_put_self (by simpa using ho), Members.forall_ofList hmembers⟩
  exact dated_putMeta hfirst (List.forall_mem_singleton.mpr (.plain _ (by decide)))

/-! ### What changes leave -/

/-- The readings of the clock that a change is given are of some kind. -/
def Action.Timed (P : Instant → Prop) : Action → Prop
  | .create _ _ _ _ now => P now
  | .replace _ _ _ _ now => P now
  | .patch _ _ _ _ now => P now
  | .delete _ _ clock => ∀ n, P (clock n)

/-- Every stored resource is dated. -/
abbrev AllDated (P : Instant → Prop) (st : Store) : Prop :=
  st.All fun _ _ v => Dated P v

theorem perform_dated (hs : s.AllStamped st) (h : AllDated P st) {a : Action} (ha : a.Timed P) :
    AllDated P (s.perform st a) := by
  have hleft := s.perform_leaves st a
  generalize s.perform st a = st' at hleft ⊢
  cases hleft with
  | refused => exact h
  | created hb hunique hres hi =>
    have ho := isObject_resolved (Registry.build_isObject hb) hres
    exact h.insert hi fun _ _ => dated_stamp s _ ho _ _ ha
  | replaced hb he hunique hres hu =>
    have hkept := replaced_get? (.inr rfl) (hs.each _ _ _ he) hb hres
    exact h.update hu (dated_restamped ((h.each _ _ _ he).congr hkept) ha)
  | patched he hp hunique hres hu =>
    have hkept := patched_get? (.inr rfl) (hs.each _ _ _ he) hp hres
    exact h.update hu (dated_restamped ((h.each _ _ _ he).congr hkept) ha)
  | deleted hd =>
    refine departed_all (fun g left n hg hl => ?_) h hd
    exact dated_restamped (hg.congr (withoutMember?_get?_of_ne (by decide) hl)) (ha n)

/-- The times in the metadata are readings of the clock that changes have been given. -/
theorem performAll_dated (hs : s.AllStamped st) (h : AllDated P st) {actions : List Action}
    (ha : ∀ a ∈ actions, a.Timed P) : AllDated P (s.performAll st actions) := by
  induction actions generalizing st with
  | nil => exact h
  | cons a rest ih =>
    obtain ⟨hfirst, hrest⟩ := List.forall_mem_cons.mp ha
    exact ih (perform_stamped hs a) (perform_dated hs h hfirst) hrest

end Service

variable {r : Registry} {kind : Kind} {type : AttributeType} {a : Attribute} {v : Json}

/-! ### The attributes -/

/-- A plain attribute whose sub-attributes, if it has any, are plain and have none of their own. -/
def Attribute.IsFlat (a : Attribute) : Prop :=
  ((a.type ≠ .integer ∧ a.type ≠ .decimal) ∧ isUrn a.name = false) ∧ ∀ b ∈ a.subAttributes,
    ((b.type ≠ .integer ∧ b.type ≠ .decimal) ∧ isUrn b.name = false) ∧
      b.subAttributes.isEmpty = true

instance (a : Attribute) : Decidable a.IsFlat := by unfold Attribute.IsFlat; infer_instance

theorem Attribute.IsFlat.plain (h : a.IsFlat) : a.Plain := by
  obtain ⟨⟨htype, hname⟩, hsub⟩ := h
  refine .intro htype hname fun b hb => ?_
  obtain ⟨⟨htype, hname⟩, hnone⟩ := hsub b hb
  refine .intro htype hname fun c hc => ?_
  rw [List.isEmpty_iff.mp hnone] at hc
  cases hc

theorem schemas_flat : ∀ definitions ∈ [Kind.user.attributes, Kind.group.attributes,
    Schema.enterpriseUser.attributes], ∀ a ∈ definitions, a.IsFlat := by
  decide

theorem attributes_plain (kind : Kind) : ∀ a ∈ kind.attributes, a.Plain :=
  fun a ha => (schemas_flat kind.attributes (by cases kind <;> simp) a ha).plain

theorem enterpriseUser_plain : ∀ a ∈ Schema.enterpriseUser.attributes, a.Plain :=
  fun a ha => (schemas_flat Schema.enterpriseUser.attributes (by simp) a ha).plain

/-- The definitions have a text under a name, which is no URN. -/
def HasText (definitions : List Attribute) (name : String) : Prop :=
  isUrn name = false ∧ ∃ b, findAttribute? definitions name = some b ∧
    (b.type = .string ∨ b.type = .reference)

theorem hasText_iff {definitions : List Attribute} {name : String} :
    HasText definitions name ↔ isUrn name = false ∧ (findAttribute? definitions name).any (fun b =>
      decide (b.type = .string ∨ b.type = .reference)) = true := by
  simp [HasText, Option.any_eq_true]

instance (definitions : List Attribute) (name : String) : Decidable (HasText definitions name) :=
  decidable_of_iff _ hasText_iff.symm

/-- The identifier of a resource is a text, its metadata are an object of texts and times, and the
groups of a user are objects of texts. -/
theorem shown_attributes (kind : Kind) :
    HasText kind.attributes "id" ∧
      (kind.attribute? "meta").any (fun a => decide (a.type = .complex ∧
        (∀ name ∈ Service.plainNames, HasText a.subAttributes name) ∧
        ∀ name ∈ Service.timeNames, isUrn name = false ∧ (findAttribute? a.subAttributes name).any
          (fun b => decide (b.type = .dateTime)) = true)) = true ∧
      (Kind.user.attribute? "groups").any (fun a => decide (a.type = .complex ∧
        ∀ name ∈ memberNames, HasText a.subAttributes name)) = true := by
  cases kind <;> decide

theorem meta_attribute (kind : Kind) : ∃ a, kind.attribute? "meta" = some a ∧ a.type = .complex ∧
    (∀ name ∈ Service.plainNames, HasText a.subAttributes name) ∧
    ∀ name ∈ Service.timeNames, isUrn name = false ∧
      ∃ b, findAttribute? a.subAttributes name = some b ∧ b.type = .dateTime := by
  obtain ⟨-, hmeta, -⟩ := shown_attributes kind
  simpa only [Option.any_eq_true, decide_eq_true_eq] using hmeta

theorem membership_attribute : ∃ a, Kind.user.attribute? "groups" = some a ∧ a.type = .complex ∧
    ∀ name ∈ memberNames, HasText a.subAttributes name := by
  obtain ⟨-, -, hgroups⟩ := shown_attributes .user
  simpa only [Option.any_eq_true, decide_eq_true_eq] using hgroups

namespace Service

variable {s : Service} {st : Store} {id baseUrl : String} {P : Instant → Prop}
  {actions : List Action}

/-- What is shown of a group is an object of texts. -/
theorem membership_texts {group m : Json} (hg : r.Tidy .group group)
    (hm : membership? baseUrl group = some m) :
    ∃ ms, m = .obj ms ∧ ∀ e ∈ ms, e.1 ∈ memberNames ∧ ∃ text, e.2 = .str text := by
  obtain ⟨id, -, rfl⟩ := Option.map_eq_some_iff.mp hm
  refine ⟨_, rfl, Members.forall_ofList fun e he => ?_⟩
  obtain ⟨⟨name, x⟩, hmem, hx⟩ := List.mem_filterMap.mp he
  obtain ⟨y, hy, rfl⟩ := Option.map_eq_some_iff.mp hx
  simp only [List.mem_cons, Prod.mk.injEq, List.not_mem_nil, or_false] at hmem
  have hname : name ∈ memberNames := by
    rcases hmem with ⟨rfl, -⟩ | ⟨rfl, -⟩ | ⟨rfl, -⟩ | ⟨rfl, -⟩ <;> decide
  refine ⟨hname, ?_⟩
  rcases hmem with ⟨-, rfl⟩ | ⟨-, rfl⟩ | ⟨-, rfl⟩ | ⟨-, rfl⟩
  · exact ⟨_, (Option.some.inj hy).symm⟩
  · exact ⟨_, (Option.some.inj hy).symm⟩
  · exact ⟨_, (Option.some.inj hy).symm⟩
  · obtain ⟨a, ha⟩ := Option.isSome_iff_exists.mp (display_known .group).1
    obtain ⟨hd, hname, hm, ht⟩ := display_text .group (by simp) ha
    exact hg.text hd hm ht (hname.symm ▸ hy)

/-- What is shown of groups is typed, too. -/
theorem memberships_typed {groups : List Json} (hg : ∀ g ∈ groups, r.Tidy .group g)
    (hc : type ≠ .complex) :
    TypedMember r .user type ("groups", .arr (groups.filterMap (membership? baseUrl))) := by
  obtain ⟨a, ha, hcomplex, htexts⟩ := membership_attribute
  refine .defined ha fun y hy => ?_
  obtain ⟨g, hmem, hy⟩ := List.mem_filterMap.mp hy
  obtain ⟨ms, rfl, hms⟩ := membership_texts (hg g hmem) hy
  refine ⟨fun ht => absurd (ht.symm.trans hcomplex) hc, typed_object fun m hm => ?_⟩
  obtain ⟨name, x⟩ := m
  obtain ⟨hname, text, rfl⟩ := hms _ hm
  obtain ⟨hurn, b, hb, htype⟩ := htexts name hname
  refine ⟨b, hb, hurn, fun y hy => ?_⟩
  obtain rfl : y = .str text := by simpa [Json.flatten] using hy
  exact typedAt_text htype text

/-- The metadata of a resource are typed, if the times among them can be read. -/
theorem meta_typed {held : Members Json} (hd : ∀ m ∈ held, DatedMember P m)
    (hc : type ≠ .complex) (hP : type = .dateTime → ∀ now, P now → now.HasYear) :
    TypedMember r kind type ("meta", .obj held) := by
  obtain ⟨a, ha, hcomplex, hplain, htime⟩ := meta_attribute kind
  refine .defined ha fun y hy => ?_
  obtain rfl : y = .obj held := by simpa [Json.flatten] using hy
  refine ⟨fun ht => absurd (ht.symm.trans hcomplex) hc, typed_object fun m hm => ?_⟩
  cases hd m hm with
  | @plain name text hname =>
    obtain ⟨hurn, b, hb, htype⟩ := hplain name hname
    refine ⟨b, hb, hurn, fun y hy => ?_⟩
    obtain rfl : y = .str text := by simpa [Json.flatten] using hy
    exact typedAt_text htype text
  | @time name now hname hnow =>
    obtain ⟨hurn, b, hb, htype⟩ := htime name hname
    refine ⟨b, hb, hurn, fun y hy => ?_⟩
    obtain rfl : y = .str now.toText := by simpa [Json.flatten] using hy
    refine ⟨fun ht => ?_, typed_of_not_object rfl⟩
    obtain rfl : type = .dateTime := ht.symm.trans htype
    simpa [TypedValue.ofJson?, Json.instant?, Json.string?] using
      Instant.parse?_toText (hP rfl now hnow)

/-- A stored resource is typed, if the times in its metadata can be read. -/
theorem stored_typed (hs : s.Stamped id v) (ht : r.Tidy kind v) (hd : Dated P v)
    (hplain : ∀ e, Registered r kind e → ∀ a ∈ e.attributes, a.Plain) (hc : type ≠ .complex)
    (hP : type = .dateTime → ∀ now, P now → now.HasYear) :
    ∃ root, v = .obj root ∧ ∀ m ∈ root, TypedMember r kind type m := by
  obtain ⟨root, rfl⟩ := Json.isObject_iff.mp ht.isObject
  have hsorted : Members.Sorted root := ht.canonical.sorted
  refine ⟨root, rfl, fun m hm => ?_⟩
  have hget := (Members.get?_eq_some_iff hsorted).mpr hm
  cases ht.canonical.fits m hm with
  | schemas items => exact .schemas _
  | assigned x hk =>
    rcases List.mem_pair.mp hk with rfl | rfl
    · obtain ⟨-, a, ha, htype⟩ := (shown_attributes kind).1
      obtain rfl : Json.str id = x := Option.some.inj (hs.identifier.symm.trans hget)
      refine .defined ha fun y hy => ?_
      obtain rfl : y = .str id := by simpa [Json.flatten] using hy
      exact typedAt_text htype id
    · obtain ⟨held, hheld, hdated⟩ := hd
      obtain rfl : Json.obj held = x := Option.some.inj (hheld.symm.trans hget)
      exact meta_typed hdated hc hP
  | @defined a x hdef hchecked =>
    exact .defined hdef.found fun y hy =>
      (attributes_plain kind a (findAttribute?_mem hdef.found)).typedAt hc
        (checkSingle_of_mem_flatten hchecked y hy)
  | @registered e o hknown ho =>
    refine .registered hknown fun y hy => ?_
    obtain rfl : y = .obj o := by simpa [Json.flatten] using hy
    refine typed_checkedObject ho fun b hb => ?_
    have hp := hplain e hknown b hb
    exact ⟨hp.name_not_urn, fun y hy => hp.typedAt hc hy⟩

/-- Resources are typed as they are shown. -/
theorem shown_typed (hst : s.AllStamped st) (hse : s.AllSettled st) (hd : AllDated P st)
    (hplain : ∀ e, Registered s.registry kind e → ∀ a ∈ e.attributes, a.Plain)
    (hc : type ≠ .complex) (hP : type = .dateTime → ∀ now, P now → now.HasYear)
    (hv : st.get? kind id = some v) (baseUrl : String) :
    TypedResource s.registry kind type (shown st kind baseUrl v) := by
  obtain ⟨root, rfl, hroot⟩ := stored_typed (hst.each _ _ _ hv) (hse.each _ _ _ hv).tidy
    (hd.each _ _ _ hv) hplain hc hP
  unfold shown
  split
  · dsimp only
    split_ifs
    · exact typedResource_of_members hroot
    · refine typedResource_of_members (Members.forall_insert hroot (memberships_typed ?_ hc))
      intro g hg
      obtain ⟨j, hj⟩ := (Store.mem_list hst.sorted).mp (List.mem_of_mem_filter hg)
      exact (hse.each _ _ _ hj).tidy
  · exact typedResource_of_members hroot

end Service

end Roster
