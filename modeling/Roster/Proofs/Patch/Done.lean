import Roster.Proofs.Patch.Course

/-! What a replacement leaves at its place. It stays there in all steps at other places, and where
the replacement meets it, it changes nothing, unless it marks elements as primary and now selects
others. -/

namespace Roster

open Members Json

/-! ### Resources in order -/

/-- Every object in a resource has its members in order and, where a name matters in all its
spellings, each of them once. The items in the list of schemas may be anything. -/
def Orderly (spelled : Prop) (resource : Json) : Prop :=
  MembersRule.Holds (fun ms => Sorted ms ∧ (spelled → ∀ name, SpelledOnce ms name))
    (sameName "schemas") resource.root

theorem orderly_rule (spelled : Prop) :
    MembersRule fun ms => Sorted ms ∧ (spelled → ∀ name, SpelledOnce ms name) :=
  sorted_rule.and (spelled_rule.of_imp spelled)

section

variable {r : Registry} {kind : Kind} {path : String} {t u : Target} {c d : Option Condition}
  {value other resource v : Json} {spelled : Prop} {keys : List String} {name urn : String}

theorem Orderly.step (h : Orderly spelled resource) {s : PatchStep}
    (hs : s.apply r kind resource = .ok v) : Orderly spelled v :=
  ((orderly_rule spelled).patchRule r kind).step (fun hf => hf.elim) h hs

theorem head_of_apart (hplace : apart ["schemas"] (keys ++ [name]) = true) :
    ∀ key ∈ keys.head?, sameName "schemas" key = false := by
  cases keys with
  | nil => simp
  | cons key rest =>
    rw [List.cons_append, apart_singleton, Bool.not_eq_true'] at hplace
    simpa using hplace

theorem Orderly.holderAt (h : Orderly spelled resource)
    (hplace : apart ["schemas"] (keys ++ [name]) = true) :
    Sorted (resource.holderAt keys) ∧
      (spelled → ∀ name, SpelledOnce (resource.holderAt keys) name) := by
  rw [← holderAt_root, Json.holderAt]
  cases ho : (Json.obj resource.root).objectAt? keys with
  | none => exact (orderly_rule spelled).nil
  | some o => exact MembersRule.Holds.objectAt h (head_of_apart hplace) ho

theorem Orderly.listAt (h : Orderly spelled resource)
    (hplace : apart ["schemas"] (keys ++ [name]) = true) :
    ∀ v ∈ listAt (resource.holderAt keys) name,
      spelled → ∀ other, SpelledOnce v.root other := by
  intro v hv
  rw [← holderAt_root] at hv
  exact ((orderly_rule spelled).holds_root (MembersRule.Holds.listAt h hplace v hv)).1.2

/-! ### What is left -/

/-- What the replacement at a path leaves at its place: an extension that is written and declared,
or that is gone and no longer declared, a value that has been put there, or what a removal
leaves. -/
inductive Done (t : Target) (c : Option Condition) (value v : Json) : Prop where
  | written {incoming : Members Json} (whole : t.definition = none) (present : value.isNull = false)
      (checked : checkMembers t.name t.members value = .ok incoming)
      (held : get? v.root t.name = some (.obj incoming)) (declared : Acknowledged t.name v.root)
  | dropped (whole : t.definition = none) (null : value.isNull = true)
      (gone : find? v.root t.name = none) (undeclared : Unlisted t.name v.root)
  | replaced {a : Attribute} {first later : Members Json} (part : t.definition = some a)
      (present : value.isNull = false)
      (edited : (t.choosing c (Members.listAt first t.name)).replaceIn a value first = .ok later)
      (left : v.slot t.container t.name = under later t.name)
      (declared : ∀ urn ∈ t.extension, Acknowledged urn v.root)
  | removed {a : Attribute} (part : t.definition = some a) (null : value.isNull = true)
      (left : v.slot t.container t.name = [] ∨ ∃ first later, SpelledOnce first t.name ∧
        (∀ sub, t.sub = some sub → ∀ w ∈ Members.listAt first t.name,
          SpelledOnce w.root sub.name) ∧
        (t.choosing c (Members.listAt first t.name)).removal a none first = .ok later ∧
        v.slot t.container t.name = under later t.name)
      (kept : ∀ urn ∈ t.extension, (v.objectAt? t.container).isSome = true →
        v.member? urn ≠ some (.obj []))

/-- An extension that is dropped when it is empty is not there and empty. -/
theorem dropEmptyExtension_member {root : Members Json} (hone : SpelledOnce root urn)
    (hne : sameName "schemas" urn = false) :
    ((Json.obj root).dropEmptyExtension urn).member? urn ≠ some (.obj []) := by
  unfold Json.dropEmptyExtension
  split
  · obtain ⟨root', hroot, hothers⟩ := undeclare_besides urn (Members.remove root urn)
    rw [Json.dropMember, hroot, member?_eq_find?]
    have hnone := (find?_of_besides hothers hne).trans hone.find?_remove
    simp [Json.root, members?, hnone]
  · rename_i hempty
    exact hempty

theorem Course.done (h : Course t c value resource v) (haims : Aims r kind path t c)
    (ho : Orderly spelled resource) (hnull : value.isNull = true → spelled) :
    Done t c value v := by
  have hplace : apart ["schemas"] (t.container ++ [t.name]) = true := haims.lies.apart_schemas
  cases h with
  | @written incoming hwhole hpresent hchecked =>
    obtain ⟨root', hroot, hothers⟩ :=
      declare_besides t.name (Members.set resource.root t.name (.obj incoming))
    refine .written hwhole hpresent hchecked ?_ (acknowledged_declare _ _)
    rw [hroot]
    exact (get?_of_besides hothers (haims.whole_address hwhole).2).trans (get?_set_self _ _ _)
  | dropped hwhole hvalue =>
    cases resource with
    | obj root =>
      obtain ⟨root', hroot, hothers⟩ := undeclare_besides t.name (Members.remove root t.name)
      refine .dropped hwhole hvalue ?_ (unlisted_undeclare _ _)
      rw [Json.dropMember, hroot]
      have hone : SpelledOnce root t.name := ho.1.2 (hnull hvalue) t.name
      exact (find?_of_besides hothers (haims.whole_address hwhole).2).trans hone.find?_remove
    | _ => exact .dropped hwhole hvalue rfl fun items hitems => by cases hitems
  | @replaced a root' hpart hpresent hedit =>
    have hedit := editWithin_holderAt hedit
    rw [holderAt_root] at hedit
    refine .replaced hpart hpresent hedit (Target.declareIn_slot fun _ => hplace) fun urn hext => ?_
    rw [Target.declareIn, hext]
    exact acknowledged_declare _ _
  | absent hpart hvalue hnothing =>
    refine .removed hpart hvalue (.inl ?_) fun urn _ hsome => by simp [hnothing] at hsome
    rw [Json.slot, Json.holderAt, hnothing]
    rfl
  | @removed a root' hpart hvalue hfound hmatch hedit =>
    have hspelled := hnull hvalue
    -- the extension has no second spelling that would come to light when it is dropped
    have hone : ∀ urn ∈ t.extension, SpelledOnce root' urn := by
      intro urn hext
      obtain ⟨keys, hkeys⟩ := haims.lies.container_of_part hext (by simp [hpart])
      rw [hkeys] at hedit
      exact editWithin_spelledOnce hedit (ho.1.2 hspelled urn)
    have hholder := editWithin_holderAt hedit
    rw [holderAt_root] at hholder
    refine .removed hpart hvalue (.inr ⟨_, _, (ho.holderAt hplace).2 hspelled _,
      fun sub _ w hw => ho.listAt hplace w hw hspelled _, hholder, ?_⟩) fun urn hext _ => ?_
    · refine Target.dropIn_slot hone (fun _ => hplace) fun urn hext => ?_
      exact .inr (haims.lies.container_of_part hext (by simp [hpart]))
    · obtain ⟨e, he, rfl, -⟩ := haims.lies.extension hext
      rw [Target.dropIn, hext]
      exact dropEmptyExtension_member (hone _ hext) (registered_not_schemas he).2

/-! ### Steps at other places -/

/-- A value that replaces another is held. -/
theorem replaceIn_held {a : Attribute} {items : List Json} {first later : Members Json}
    (h : (t.choosing c items).replaceIn a value first = .ok later) : under later a.name ≠ [] := by
  rw [Ne, under_eq_nil_iff, ← Ne, ← Option.isSome_iff_ne_none]
  unfold Target.replaceIn at h
  split at h
  · obtain ⟨new, -, h⟩ := bind_eq_ok.mp h
    rw [guard_eq_ok] at h
    obtain ⟨_, -, h⟩ := bind_eq_ok.mp h.2
    cases h
    rw [find?_set_self]
    rfl
  · obtain ⟨new, items, -, -, -, rfl⟩ := setEvery_eq_ok h
    rw [find?_putHeld_self]
    rfl
  · obtain ⟨new, -, h⟩ := bind_eq_ok.mp h
    obtain ⟨items, -, rfl⟩ := editList_eq_ok h
    rw [find?_putHeld_self]
    rfl
  · obtain ⟨new, -, h⟩ := bind_eq_ok.mp h
    obtain ⟨items, -, rfl⟩ := editList_eq_ok h
    rw [find?_putHeld_self]
    rfl

/-- An extension in which something is held is not empty. -/
theorem member_ne_empty (h : v.slot (urn :: keys) name ≠ []) :
    v.member? urn ≠ some (.obj []) := by
  intro hempty
  rw [member?_eq_find?] at hempty
  rw [← slot_root] at h
  exact h (slot_of_empty (.inr hempty))

theorem objectAt?_of_empty (h : v.member? urn = some (.obj [])) (key : String)
    (keys : List String) : v.objectAt? (urn :: key :: keys) = none := by
  rw [objectAt?, h]
  rfl

/-- A step in an extension leaves it empty only where the step does nothing. -/
theorem Course.eq_of_empty (h : Course t c value resource v) (haims : Aims r kind path t c)
    (ho : Orderly spelled resource) (hnull : value.isNull = true → spelled)
    (hext : t.extension = some urn) (hpart : t.definition ≠ none)
    (hempty : v.member? urn = some (.obj [])) : v = resource := by
  obtain ⟨keys, hkeys⟩ := haims.lies.container_of_part hext hpart
  have hdone := h.done haims ho hnull
  cases h with
  | written hwhole => exact absurd hwhole hpart
  | dropped hwhole => exact absurd hwhole hpart
  | absent => rfl
  | @replaced _ root' hd hpresent =>
    cases hdone with
    | written hwhole => exact absurd hwhole hpart
    | dropped hwhole => exact absurd hwhole hpart
    | removed _ hvalue => simp [hvalue] at hpresent
    | @replaced a _ _ hd _ hedit hleft =>
      have hheld : (t.declareIn (.obj root')).slot (urn :: keys) t.name ≠ [] := by
        rw [← hkeys, hleft, haims.named a hd]
        exact replaceIn_held hedit
      exact absurd hempty (member_ne_empty hheld)
  | removed _ hvalue _ _ hedit =>
    obtain ⟨e, he, rfl, -⟩ := haims.lies.extension hext
    rw [hkeys] at hedit
    rw [Target.dropIn, hext] at hempty
    exact absurd hempty (dropEmptyExtension_member
      (editWithin_spelledOnce hedit (ho.1.2 (hnull hvalue) _))
      (registered_not_schemas he).2)

/-- An extension in which something is held stays declared in steps that write or remove parts of
it. -/
theorem Course.acknowledged (h : Course t c value resource v) (haims : Aims r kind path t c)
    (ho : Orderly spelled resource) (hnull : value.isNull = true → spelled)
    (hext : t.extension = some urn) (hpart : t.definition ≠ none)
    (hheld : v.slot (urn :: keys) name ≠ []) (hack : Acknowledged urn resource.root) :
    Acknowledged urn v.root := by
  cases h with
  | written hwhole => exact absurd hwhole hpart
  | dropped hwhole => exact absurd hwhole hpart
  | absent => exact hack
  | replaced =>
    rw [Target.declareIn, hext]
    exact acknowledged_declare _ _
  | removed _ hvalue _ _ hedit =>
    obtain ⟨e, he, rfl, -⟩ := haims.lies.extension hext
    obtain ⟨keys', hkeys'⟩ := haims.lies.container_of_part hext hpart
    obtain ⟨hne', hne⟩ := registered_not_schemas he
    rw [hkeys'] at hedit
    have hone := editWithin_spelledOnce hedit (ho.1.2 (hnull hvalue) e.id)
    obtain ⟨inner, -, rfl⟩ := editObject_root hedit
    have hplace : apart ["schemas"] (e.id :: keys ++ [name]) = true := by
      simp [apart_singleton, hne]
    rw [Target.dropIn, hext] at hheld ⊢
    simp only [dropEmptyExtension_slot hone hplace (.inr ⟨keys, rfl⟩)] at hheld
    simp only [Json.dropEmptyExtension]
    split
    · -- an extension in which something is left has not been dropped
      rename_i hempty
      exact absurd hempty (member_ne_empty hheld)
    · rw [acknowledged_congr]
      · exact hack
      · exact find?_of_besides (besides_putHeld _ _ _) hne'

/-- A step outside all extensions leaves what is found for an extension, or for the list of
schemas. -/
theorem Course.find?_outside (h : Course t c value resource v) (haims : Aims r kind path t c)
    (hnone : t.extension = none) (hapart : apart [name] t.address = true) :
    find? v.root name = find? resource.root name :=
  find?_of_under (h.slot haims (fun _ urn hext => by simp [hnone] at hext)
    (Target.spares_top hnone hapart))

/-- What a replacement leaves at its place stays there in steps at other places. -/
theorem Done.keep {kind : Kind} {path path' : String} (hdone : Done u d other resource)
    (h : Course t c value resource v) (ht : Aims .standard kind path t c)
    (hu : Aims .standard kind path' u d) (hapart : apart t.address u.address = true)
    (ho : Orderly spelled resource) (hnull : value.isNull = true → spelled) :
    Done u d other v := by
  have hslot : v.slot u.container u.name = resource.slot u.container u.name :=
    h.slot ht (fun hvalue urn _ => ho.1.2 (hnull hvalue) urn) (ht.lies.spares hu.lies hapart)
  have hschemas (hnone : t.extension = none) :
      find? v.root "schemas" = find? resource.root "schemas" :=
    h.find?_outside ht hnone ht.lies.apart_schemas
  -- a step in the extension that the other lies in takes neither as a whole
  have hpart {urn : String} (hext : u.extension = some urn) (hud : u.definition ≠ none)
      (hsome : t.extension ≠ none) : t.extension = some urn ∧ t.definition ≠ none := by
    obtain ⟨urn', hext'⟩ := Option.ne_none_iff_exists'.mp hsome
    obtain rfl := extension_standard_unique ht.lies hu.lies hext' hext
    refine ⟨hext', fun hwhole => ?_⟩
    rw [apart_comm] at hapart
    simp [hu.lies.outside ht hwhole hapart] at hext
  -- what is left at the place is in its slot, and the rest is what the list of schemas says of it
  cases hdone with
  | written hwhole hpresent hchecked hheld hdeclared =>
    have hnone := ht.lies.outside hu hwhole hapart
    refine .written hwhole hpresent hchecked ?_
      ((acknowledged_congr (hschemas hnone)).mpr hdeclared)
    rw [Json.slot, Json.slot, (hu.whole hwhole).1] at hslot
    exact (get?_of_under hslot).trans hheld
  | dropped hwhole hvalue hgone hundeclared =>
    have hnone := ht.lies.outside hu hwhole hapart
    refine .dropped hwhole hvalue ?_ ((unlisted_congr (hschemas hnone)).mpr hundeclared)
    rw [Json.slot, Json.slot, (hu.whole hwhole).1] at hslot
    exact (find?_of_under hslot).trans hgone
  | @replaced a _ _ hd hpresent hedit hleft hdeclared =>
    refine .replaced hd hpresent hedit (hslot.trans hleft) fun urn hext => ?_
    by_cases hnone : t.extension = none
    · exact (acknowledged_congr (hschemas hnone)).mpr (hdeclared urn hext)
    · obtain ⟨hsame, htd⟩ := hpart hext (by simp [hd]) hnone
      obtain ⟨keys, hkeys⟩ := hu.lies.container_of_part hext (by simp [hd])
      have hheld : v.slot (urn :: keys) u.name ≠ [] := by
        rw [← hkeys, hslot, hleft, hu.named a hd]
        exact replaceIn_held hedit
      exact h.acknowledged ht ho hnull hsame htd hheld (hdeclared urn hext)
  | removed hd hvalue hleft hkept =>
    refine .removed hd hvalue (by rwa [hslot]) fun urn hext hsome hempty => ?_
    by_cases hnone : t.extension = none
    · obtain ⟨e, he, rfl, -⟩ := hu.lies.extension hext
      obtain ⟨keys, hkeys⟩ := hu.lies.container_of_part hext (by simp [hd])
      have hbefore : resource.member? e.id = some (.obj []) := by
        rw [member?_eq_find?] at hempty ⊢
        rw [← h.find?_outside ht hnone (ht.lies.apart_extension hnone he), hempty]
      refine hkept _ hext ?_ hbefore
      rw [hkeys] at hsome ⊢
      -- no names lead on from an empty object
      cases keys with
      | nil => simp [objectAt?, hbefore, members?]
      | cons => simp [objectAt?_of_empty hempty] at hsome
    · obtain ⟨hsame, htd⟩ := hpart hext (by simp [hd]) hnone
      obtain rfl := h.eq_of_empty ht ho hnull hsame htd hempty
      exact hkept urn hext hsome hempty

/-! ### The same step again -/

/-- Null marks nothing as primary. -/
theorem settled_of_null {a : Attribute} {holder : Members Json} (hnull : value.isNull = true) :
    t.Settled a value holder := by
  obtain rfl := eq_null hnull
  have hnone {x : Except PatchFault Json} (hx : ∀ w, x ≠ .ok w) : x.toOption = none := by
    cases x with
    | ok w => exact absurd rfl (hx w)
    | error => rfl
  refine fun hmarks => absurd hmarks ?_
  unfold Target.marksChosen
  split
  · simp [hnone (checkValue_null _)]
  · simp [hnone (checkSingle_null a)]

theorem obj_root (h : resource.root ≠ []) : Json.obj resource.root = resource := by
  cases resource with
  | obj root => rfl
  | _ => exact absurd rfl h

theorem obj_root_of_objectAt? (h : (resource.objectAt? keys).isSome = true) :
    Json.obj resource.root = resource := by
  cases resource with
  | obj root => rfl
  | _ => cases keys <;> simp [objectAt?, member?, members?] at h

/-- An edit that leaves the object as it is that it is made in leaves the resource as it is. -/
theorem Orderly.editWithin_eq_self (ho : Orderly spelled resource)
    (hplace : apart ["schemas"] (keys ++ [name]) = true)
    (hheld : (resource.objectAt? keys).isSome = true) {f : Edit (Members Json)}
    {root' : Members Json} (hedit : editWithin keys f resource.root = .ok root')
    (hsame : (Json.obj root').holderAt keys = resource.holderAt keys) :
    Json.obj root' = resource := by
  have hobj := obj_root_of_objectAt? hheld
  rw [← hobj] at hheld hsame
  have hself : root' = resource.root := by
    refine Roster.editWithin_eq_self (fun front hfront o hfo => ?_) hheld hedit hsame
    refine (MembersRule.Holds.objectAt ho (fun key hkey => ?_) hfo).1
    obtain ⟨rest, rfl⟩ := hfront
    refine head_of_apart hplace key ?_
    cases front with
    | nil => simp at hkey
    | cons => simpa using hkey
  rw [hself, hobj]

/-! An extension that is held and declared is written, and one that is gone is dropped, without a
change. -/

theorem set_declare_eq_self (hs : Sorted resource.root)
    (hheld : get? resource.root name = some value) (hdeclared : Acknowledged name resource.root) :
    (Json.obj (Members.set resource.root name value)).declare name = resource := by
  rw [set_of_get? hs hheld, declare_eq_self hs hdeclared]
  refine obj_root fun hempty => ?_
  simp [hempty, Members.get?] at hheld

theorem dropMember_undeclare_eq_self (hs : Sorted resource.root)
    (hgone : find? resource.root name = none) (hundeclared : Unlisted name resource.root) :
    (resource.dropMember name).undeclare name = resource := by
  cases resource with
  | obj root =>
    have hgone : find? root name = none := hgone
    rw [Json.dropMember, remove_of_find?_eq_none hgone]
    exact undeclare_eq_self hs hundeclared
  | _ => rfl

theorem Target.declareIn_eq_self (hs : Sorted resource.root)
    (hobj : Json.obj resource.root = resource)
    (hdeclared : ∀ urn ∈ t.extension, Acknowledged urn resource.root) :
    t.declareIn resource = resource := by
  unfold Target.declareIn
  split
  · rename_i urn hext
    rw [← hobj]
    exact declare_eq_self hs (hdeclared urn hext)
  · rfl

theorem Target.dropIn_eq_self (hkept : ∀ urn ∈ t.extension, resource.member? urn ≠ some (.obj [])) :
    t.dropIn resource = resource := by
  unfold Target.dropIn
  split
  · rename_i urn hext
    unfold Json.dropEmptyExtension
    split
    · rename_i hempty
      exact absurd hempty (hkept urn hext)
    · rfl
  · rfl

/-- The object in which a replaced attribute is held stays the same exactly when the replacement is
settled. -/
theorem Aims.replaceIn_again {kind : Kind} {a : Attribute} {first later again : Members Json}
    (h : Aims .standard kind path t c) (hpart : t.definition = some a)
    (hfirst : (t.choosing c (Members.listAt first t.name)).replaceIn a value first = .ok later)
    (hsorted : Sorted (resource.holderAt t.container))
    (hleft : resource.slot t.container t.name = under later t.name)
    (hagain : (t.inside c resource).replaceIn a value (resource.holderAt t.container) =
      .ok again) :
    ((t.inside c resource).Settled a value (resource.holderAt t.container) →
      again = resource.holderAt t.container) ∧
    (under again t.name = resource.slot t.container t.name →
      (t.inside c resource).Settled a value (resource.holderAt t.container)) := by
  rw [Target.inside] at hagain ⊢
  rw [h.named a hpart] at hfirst hleft hagain ⊢
  cases c with
  | none =>
    refine ⟨fun _ => replaceIn_whole_again hfirst hsorted hleft hagain, fun _ _ => ?_⟩
    simp [Target.choosing, Selection.indices?]
  | some c =>
    -- what a condition selects lies in a list at the top
    obtain ⟨-, -, -, hin⟩ := selected_at_top (resolveText_resolved (h.resolved resource))
      (a := a) hpart rfl
    exact replaceIn_choosing_again
      (attributes_spellPrimary kind a (findAttribute?_mem hin.defined.found)) hin.sub hfirst
      hsorted hleft hagain

/-- Whether a replacement is settled depends on what is held at its place. -/
theorem Aims.settled_congr {a : Attribute} (h : Aims r kind path t c) (ha : t.definition = some a)
    (hslot : v.slot t.container t.name = resource.slot t.container t.name) :
    (t.inside c v).Settled a value (v.holderAt t.container) ↔
      (t.inside c resource).Settled a value (resource.holderAt t.container) := by
  have hlist : Members.listAt (v.holderAt t.container) t.name =
      Members.listAt (resource.holderAt t.container) t.name := by
    unfold Members.listAt
    rw [find?_of_under hslot]
  unfold Target.Settled
  rw [← h.named a ha, Target.inside, Target.inside, hlist]

/-- A removal that meets what it has left changes nothing. -/
theorem Done.removed_again {kind : Kind} {a : Attribute} {root' : Members Json}
    (hdone : Done t c value resource) (haims : Aims .standard kind path t c)
    (ho : Orderly spelled resource) (hpart : t.definition = some a) (hvalue : value.isNull = true)
    (hfound : (resource.objectAt? t.container).isSome = true)
    (hmatch : (t.inside c resource).selection ≠ .elements [])
    (hedit : editWithin t.container ((t.inside c resource).removal a none) resource.root =
      .ok root') :
    t.dropIn (.obj root') = resource := by
  have hplace : apart ["schemas"] (t.container ++ [t.name]) = true := haims.lies.apart_schemas
  have hsorted := (ho.holderAt hplace).1
  have hagain := editWithin_holderAt hedit
  rw [holderAt_root] at hagain
  cases hdone with
  | written hwhole | dropped hwhole => simp [hpart] at hwhole
  | replaced _ hpresent => simp [hvalue] at hpresent
  | @removed b hb _ hleft hkept =>
    obtain rfl : a = b := Option.some.inj (hpart.symm.trans hb)
    have hsame : (Json.obj root').holderAt t.container = resource.holderAt t.container := by
      rw [Target.inside, haims.named a hpart] at hmatch hagain
      rw [haims.named a hpart] at hleft
      rcases hleft with hnone | ⟨first, later, hone, hones, hfirst, hleft⟩
      · exact removal_of_find?_eq_none (under_eq_nil_iff.mp hnone) hagain
      · exact removal_again hone hones hfirst hsorted hleft hmatch hagain
    rw [ho.editWithin_eq_self hplace hfound hedit hsame]
    exact Target.dropIn_eq_self fun urn hext => hkept urn hext hfound

/-- A value that meets itself in its place stays the same exactly when the replacement is
settled. -/
theorem Done.replaced_again {kind : Kind} {a : Attribute} {root' : Members Json}
    (hdone : Done t c value resource) (haims : Aims .standard kind path t c)
    (ho : Orderly spelled resource) (hpart : t.definition = some a)
    (hpresent : value.isNull = false)
    (hedit : editWithin t.container ((t.inside c resource).replaceIn a value) resource.root =
      .ok root') :
    ((t.inside c resource).Settled a value (resource.holderAt t.container) →
      t.declareIn (.obj root') = resource) ∧
    ((t.declareIn (.obj root')).slot t.container t.name = resource.slot t.container t.name →
      (t.inside c resource).Settled a value (resource.holderAt t.container)) := by
  have hplace : apart ["schemas"] (t.container ++ [t.name]) = true := haims.lies.apart_schemas
  have hsorted := (ho.holderAt hplace).1
  have hagain := editWithin_holderAt hedit
  rw [holderAt_root] at hagain
  cases hdone with
  | written hwhole | dropped hwhole => simp [hpart] at hwhole
  | removed _ hvalue => simp [hvalue] at hpresent
  | @replaced b first later hb _ hfirst hleft hdeclared =>
    obtain rfl : a = b := Option.some.inj (hpart.symm.trans hb)
    obtain ⟨hkeep, hsettle⟩ := haims.replaceIn_again hpart hfirst hsorted hleft hagain
    constructor
    · intro hsettled
      have hfound : (resource.objectAt? t.container).isSome = true := by
        rw [Option.isSome_iff_ne_none]
        intro hnone
        rw [Json.slot, Json.holderAt, hnone, haims.named a hpart] at hleft
        rw [haims.named a hpart] at hfirst
        exact replaceIn_held hfirst hleft.symm
      rw [ho.editWithin_eq_self hplace hfound hedit (hkeep hsettled)]
      exact Target.declareIn_eq_self ho.1.1 (obj_root_of_objectAt? hfound) hdeclared
    · intro hslot
      rw [Target.declareIn_slot fun _ => hplace] at hslot
      exact hsettle hslot

/-- Where a replacement meets what it has left, it changes nothing exactly when it is settled. -/
theorem Done.again {kind : Kind} (hdone : Done t c value resource)
    (h : Course t c value resource v) (haims : Aims .standard kind path t c)
    (ho : Orderly spelled resource) :
    ((∀ a ∈ t.definition, (t.inside c resource).Settled a value (resource.holderAt t.container)) →
      v = resource) ∧
    (v.slot t.container t.name = resource.slot t.container t.name →
      ∀ a ∈ t.definition,
        (t.inside c resource).Settled a value (resource.holderAt t.container)) := by
  cases h with
  | written hwhole hpresent hchecked =>
    refine ⟨fun _ => ?_, fun _ a ha => by simp [hwhole] at ha⟩
    cases hdone with
    | written _ _ hchecked' hheld hdeclared =>
      obtain rfl := Except.ok.inj (hchecked.symm.trans hchecked')
      exact set_declare_eq_self ho.1.1 hheld hdeclared
    | dropped _ hvalue => simp [hvalue] at hpresent
    | replaced hd | removed hd => simp [hwhole] at hd
  | dropped hwhole hvalue =>
    refine ⟨fun _ => ?_, fun _ a ha => by simp [hwhole] at ha⟩
    cases hdone with
    | dropped _ _ hgone hundeclared =>
      exact dropMember_undeclare_eq_self ho.1.1 hgone hundeclared
    | written _ hpresent => simp [hvalue] at hpresent
    | replaced hd | removed hd => simp [hwhole] at hd
  | absent _ hvalue => exact ⟨fun _ => rfl, fun _ a _ => settled_of_null hvalue⟩
  | removed hpart hvalue hfound hmatch hedit =>
    exact ⟨fun _ => hdone.removed_again haims ho hpart hvalue hfound hmatch hedit,
      fun _ a _ => settled_of_null hvalue⟩
  | replaced hpart hpresent hedit =>
    obtain ⟨hkeep, hsettle⟩ := hdone.replaced_again haims ho hpart hpresent hedit
    refine ⟨fun hsettled => hkeep (hsettled _ hpart), fun hslot b hb => ?_⟩
    cases hpart.symm.trans hb
    exact hsettle hslot

end

end Roster
