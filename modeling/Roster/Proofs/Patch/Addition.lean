import Roster.Proofs.Patch.Appended
import Roster.Proofs.Patch.Done

/-! Additions that are made twice. Without a value filter an addition meets the second time what it
has left the first time, and changes nothing of it but the list of an attribute to which it has
added several primary values. -/

namespace Roster

open Members Json

/-! ### Edits that leave their object as it is -/

section

variable {ms incoming held : Members Json} {definitions : List Attribute} {name : String}
  {keys : List String} {items : List Json} {o : Members Json} {resource : Json} {spelled : Prop}

theorem setAll_of_get? (hs : Sorted ms) (h : ∀ m ∈ incoming, get? ms m.1 = some m.2) :
    setAll ms incoming = ms := by
  induction incoming with
  | nil => rfl
  | cons m rest ih =>
    obtain ⟨hm, hrest⟩ := List.forall_mem_cons.mp h
    rw [setAll, List.foldl_cons, set_of_get? hs hm]
    exact ih hrest

theorem get?_setAll (hi : CheckedObject definitions incoming) (held : Members Json) :
    ∀ m ∈ incoming, get? (setAll held incoming) m.1 = some m.2 := by
  rintro ⟨key, v⟩ hm
  have hspell : ∀ k ∈ Members.keys incoming, sameName key k = true → k = key := fun k hk hs =>
    hi.spelledOnce key k hk key (List.mem_map_of_mem hm) hs (sameName_refl key)
  rw [look_setAll (get? · key) (fun ms w => get?_set_self ms key w)
    (fun hne ms w => get?_set_of_not_same w hne) hi.sorted hspell, get?_of_mem hi.sorted hm]
  rfl

theorem editList_eq_self {f : Edit (List Json)} (hs : Sorted ms)
    (hfound : find? ms name = some (.arr items)) (hf : f items = .ok items) :
    Members.editList name f ms = .ok ms :=
  edit_eq_ok.mpr ⟨.arr items, by simp [hfound, Json.editList, hf, Except.map],
    putHeld_of_find? hs hfound⟩

theorem editObject_eq_self {f : Edit (Members Json)} (hs : Sorted ms)
    (hfound : find? ms name = some (.obj o)) (hf : f o = .ok o) :
    Members.editObject name f ms = .ok ms :=
  edit_eq_ok.mpr ⟨.obj o, by simp [hfound, Json.editObject, hf, Except.map],
    putHeld_of_find? hs hfound⟩

/-- The object in which an edit is made is there afterwards. -/
theorem editWithin_objectAt {f : Edit (Members Json)} {ms' : Members Json}
    (h : editWithin keys f ms = .ok ms') :
    ∃ o, f ((Json.obj ms).holderAt keys) = .ok o ∧ (Json.obj ms').objectAt? keys = some o := by
  induction keys generalizing ms ms' with
  | nil => exact ⟨ms', h, rfl⟩
  | cons key keys ih =>
    obtain ⟨inner, hinner, rfl⟩ := editObject_root h
    obtain ⟨o, ho, hat⟩ := ih hinner
    rw [holderAt_root] at ho
    refine ⟨o, by rwa [holderAt_cons], ?_⟩
    rw [objectAt?, member?_eq_find?]
    simpa [Json.root, members?, find?_putHeld_self] using hat

theorem editWithin_self {f : Edit (Members Json)}
    (hs : ∀ front, front <+: keys → ∀ o, (Json.obj ms).objectAt? front = some o → Sorted o)
    (hat : (Json.obj ms).objectAt? keys = some o) (hf : f o = .ok o) :
    editWithin keys f ms = .ok ms := by
  induction keys generalizing ms with
  | nil =>
    cases hat
    exact hf
  | cons key keys ih =>
    obtain ⟨v, hv, hat⟩ := Option.bind_eq_some_iff.mp hat
    have hfound : find? ms key = some v := hv
    obtain ⟨inner, rfl⟩ : ∃ inner, v = .obj inner := by
      cases v with
      | obj inner => exact ⟨inner, rfl⟩
      | _ => cases keys <;> simp [objectAt?, members?, member?] at hat
    refine editObject_eq_self (hs [] List.nil_prefix ms rfl) hfound (ih ?_ hat)
    intro front hfront o' ho'
    refine hs (key :: front) ((List.prefix_cons_inj key).mpr hfront) o' ?_
    simpa [objectAt?, hv] using ho'

theorem objectAt?_snoc {v : Json} {inner : Members Json} (hat : v.objectAt? keys = some o)
    (hfound : find? o name = some (.obj inner)) : v.objectAt? (keys ++ [name]) = some inner := by
  induction keys generalizing v with
  | nil =>
    rw [List.nil_append, objectAt?, member?, show v.members? = some o from hat]
    simp [hfound, objectAt?, members?]
  | cons key keys ih =>
    obtain ⟨w, hw, hat⟩ := Option.bind_eq_some_iff.mp hat
    rw [List.cons_append, objectAt?, hw]
    exact ih hat

/-- An edit that leaves the object as it is that it is made in is made without a change. -/
theorem Orderly.editAt_self (ho : Orderly spelled resource)
    (hplace : apart ["schemas"] (keys ++ [name]) = true) (hat : resource.objectAt? keys = some o)
    {f : Edit (Members Json)} (hf : f o = .ok o) : resource.editAt keys f = .ok resource := by
  have hobj := obj_root_of_objectAt? (by rw [hat]; rfl)
  rw [← hobj] at hat ⊢
  have hself : editWithin keys f resource.root = .ok resource.root := by
    refine editWithin_self (fun front hfront o' ho' => ?_) hat hf
    refine (MembersRule.Holds.objectAt ho (fun key hkey => ?_) ho').1
    obtain ⟨rest, rfl⟩ := hfront
    refine head_of_apart hplace key ?_
    cases front with
    | nil => simp at hkey
    | cons => simpa using hkey
  simp [editAt, Json.editObject, hself, Except.map]

end

/-! ### Additions to an attribute -/

section

variable {a sub : Attribute} {t : Target} {value : Json} {first later : Members Json}

/-- The primary ones among the values that an addition appends to the list of an attribute demote
none of each other. -/
def Target.AddsOne (t : Target) (a : Attribute) (value : Json) (holder : Members Json) : Prop :=
  t.sub = none → a.multiValued = true →
    ∀ items ∈ (checkElements a value).toOption, Roster.AddsOne (listAt holder a.name) items

instance (t : Target) (a : Attribute) (value : Json) (holder : Members Json) :
    Decidable (t.AddsOne a value holder) :=
  inferInstanceAs (Decidable (t.sub = none → a.multiValued = true →
    ∀ items ∈ (checkElements a value).toOption, Roster.AddsOne (listAt holder a.name) items))

theorem setEvery_again (hs : Sorted later) (hfirst : setEvery a sub value first = .ok later) :
    setEvery a sub value later = .ok later := by
  obtain ⟨new, hnew, h⟩ := bind_eq_ok.mp hfirst
  split at h
  case h_2 => cases h
  case h_1 v rest hfound =>
    rw [guard_eq_ok] at h
    obtain ⟨hone, h⟩ := h
    obtain ⟨edited, hedited, rfl⟩ := editList_eq_ok h
    rw [mapM_eq_editSelected _ 0] at hedited
    obtain ⟨w, rest', hw, hrest, rfl⟩ := editSelected_cons hedited
    have hfound' := find?_putHeld_self first a.name (.arr (w :: rest'))
    have hempty : rest'.isEmpty = rest.isEmpty := by
      rw [Bool.eq_iff_iff, List.isEmpty_iff_length_eq_zero, List.isEmpty_iff_length_eq_zero,
        editSelected_length hrest]
    have hself : (w :: rest').mapM (setSub sub new) = .ok (w :: rest') := by
      rw [mapM_eq_editSelected _ 0]
      refine editSelected_eq_self fun i x hx _ => ?_
      obtain ⟨u, -, hu⟩ := editSelected_getElem? hedited hx
      exact setSub_settling sub new u x hu
    refine bind_eq_ok.mpr ⟨new, hnew, ?_⟩
    simp only [hfound', hempty, if_neg hone]
    exact editList_eq_self hs hfound' hself

/-- The members of an object that has been merged are merged again without a change. -/
theorem merge_self {incoming merged : Members Json} (hs : Sorted merged)
    (h : ∀ m ∈ incoming, get? merged m.1 = some m.2) :
    incoming.foldlM (fun members m => do
      if let some sub := a.subAttribute? m.1 then
        checkImmutable sub (Members.find? members m.1) m.2
      .ok (Members.set members m.1 m.2)) merged = .ok merged := by
  induction incoming with
  | nil => rfl
  | cons m rest ih =>
    obtain ⟨hm, hrest⟩ := List.forall_mem_cons.mp h
    refine bind_eq_ok.mpr ⟨merged, ?_, ih hrest⟩
    cases hsub : a.subAttribute? m.1 with
    | none => simp [hsub, set_of_get? hs hm]
    | some sub =>
      simp [hsub, checkImmutable, find?_of_get? hm, Json.same_refl, set_of_get? hs hm, bind,
        Except.bind]

/-- An addition that is made again, on what it has left, changes nothing where no primary value
that it adds demotes another. -/
theorem Target.addIn_self (hwhole : t.selection = .whole)
    (hfirst : t.addIn a value first = .ok later) (hs : Sorted later)
    (hinner : ∀ o, find? later a.name = some (.obj o) → Sorted o)
    (hone : t.AddsOne a value first) : t.addIn a value later = .ok later := by
  cases hsub : t.sub with
  | some sub =>
    simp only [Target.addIn, hwhole, hsub] at hfirst ⊢
    exact setEvery_again hs hfirst
  | none =>
    simp only [Target.addIn, hwhole, hsub] at hfirst ⊢
    by_cases hmulti : a.multiValued = true
    · simp only [if_pos hmulti] at hfirst ⊢
      obtain ⟨items, hitems, hfirst⟩ := bind_eq_ok.mp hfirst
      obtain ⟨added, hadded, rfl⟩ := editList_eq_ok hfirst
      cases hadded
      refine bind_eq_ok.mpr ⟨items, hitems, ?_⟩
      refine editList_eq_self hs (find?_putHeld_self _ _ _) (congrArg Except.ok ?_)
      exact appendAll_again.mpr (hone hsub hmulti items (by rw [hitems]; rfl))
    · simp only [if_neg hmulti] at hfirst ⊢
      by_cases hcomplex : (a.type == .complex) = true
      · simp only [if_pos hcomplex] at hfirst ⊢
        obtain ⟨incoming, hincoming, hfirst⟩ := bind_eq_ok.mp hfirst
        obtain ⟨held, inner, -, hmerged, rfl⟩ := editObject_eq_ok hfirst
        obtain rfl := merge_eq_ok hmerged
        have hfound := find?_putHeld_self first a.name (.obj (setAll held incoming))
        refine bind_eq_ok.mpr ⟨incoming, hincoming, ?_⟩
        refine editObject_eq_self hs hfound (merge_self (hinner _ hfound) ?_)
        exact get?_setAll (checkMembers_checked hincoming) held
      · simp only [if_neg hcomplex] at hfirst ⊢
        obtain ⟨new, hnew, hfirst⟩ := bind_eq_ok.mp hfirst
        obtain ⟨_, -, hfirst⟩ := bind_eq_ok.mp hfirst
        cases hfirst
        refine bind_eq_ok.mpr ⟨new, hnew, ?_⟩
        simp [checkImmutable, find?_set_self, Json.same_refl, set_set, bind, Except.bind]

/-- Where it leaves the values of the attribute as they are, no primary one demotes another. -/
theorem Target.addsOne_of_again (hwhole : t.selection = .whole)
    (hfirst : t.addIn a value first = .ok later) {holder again : Members Json}
    (hsame : find? holder a.name = find? later a.name)
    (hagain : t.addIn a value holder = .ok again)
    (hleft : find? again a.name = find? holder a.name) : t.AddsOne a value first := by
  intro hsub hmulti items hitems
  simp only [Target.addIn, hwhole, hsub, if_pos hmulti] at hfirst hagain
  obtain ⟨checked, hchecked, hfirst⟩ := bind_eq_ok.mp hfirst
  obtain ⟨checked', hchecked', hagain⟩ := bind_eq_ok.mp hagain
  obtain rfl : checked = checked' := Except.ok.inj (hchecked.symm.trans hchecked')
  obtain rfl : checked = items := by simpa [hchecked, Except.toOption] using hitems
  obtain ⟨added, hadded, rfl⟩ := editList_eq_ok hfirst
  obtain ⟨more, hmore, rfl⟩ := editList_eq_ok hagain
  cases hadded
  cases hmore
  rw [find?_putHeld_self] at hsame
  rw [find?_putHeld_self, hsame, listAt_of_find? hsame] at hleft
  exact appendAll_again.mp (Json.arr.inj (Option.some.inj hleft))

end

/-! ### Additions to a resource -/

section

variable {r : Registry} {kind : Kind} {path : String} {t : Target} {c : Option Condition}
  {value resource once v : Json} {spelled : Prop} {keys : List String} {name : String}

/-- A path without a filter selects none of the elements of a list. -/
theorem resolveSegments_whole {extension : Option String} {scope : Scope}
    {container : List String} {segments : List Segment}
    (hplain : ∀ s ∈ segments, s.filter? = none)
    (h : resolveSegments r kind path resource extension scope container segments = .ok t) :
    t.selection = .whole := by
  induction segments generalizing scope container with
  | nil => simp [resolveSegments] at h
  | cons s rest ih =>
    obtain ⟨hs, hrest⟩ := List.forall_mem_cons.mp hplain
    rw [resolveSegments, guard_eq_ok] at h
    have h := h.2
    split at h
    case h_1 => cases h
    case h_2 =>
      split at h
      case h_1 => cases h
      case h_2 =>
        rw [guard_eq_ok, guard_eq_ok] at h
        have h := h.2.2
        split_ifs at h
        · exact ih hrest h
        · obtain ⟨filter, hfilter, h⟩ := bind_eq_ok.mp h
          obtain ⟨selection, hselection, h⟩ := bind_eq_ok.mp h
          obtain ⟨sub, -, h⟩ := bind_eq_ok.mp h
          cases h
          simp only [Segment.filterOrError, Segment.parsedFilter, hs, Except.ok.injEq] at hfilter
          subst hfilter
          cases hselection
          rfl

/-- No part of a path has a filter. -/
def Unfiltered (r : Registry) (path : String) : Prop :=
  ∀ e ∈ (Expression.parse r path).toOption, ∀ s ∈ e.segments, s.filter? = none

instance (r : Registry) (path : String) : Decidable (Unfiltered r path) :=
  inferInstanceAs (Decidable (∀ e ∈ (Expression.parse r path).toOption,
    ∀ s ∈ e.segments, s.filter? = none))

theorem Unfiltered.whole (hplain : Unfiltered r path)
    (h : resolveText r kind path resource = .ok t) : t.selection = .whole := by
  unfold resolveText liftFault at h
  split at h
  case h_2 => cases h
  case h_1 t' ht =>
    cases h
    obtain ⟨e, he, ht⟩ := bind_eq_ok.mp ht
    have hsegments : ∀ s ∈ e.segments, s.filter? = none := hplain e (by rw [he]; rfl)
    unfold Expression.resolve at ht
    split at ht
    case h_2 => exact resolveSegments_whole hsegments ht
    case h_1 urn rest hurn =>
      split at ht
      case isFalse => exact resolveSegments_whole hsegments ht
      case isTrue =>
        split at ht
        case h_1 => cases ht
        case h_2 =>
          split at ht
          case isTrue =>
            cases ht
            rfl
          case isFalse =>
            rw [hurn] at hsegments
            exact resolveSegments_whole (List.forall_mem_cons.mp hsegments).2 ht

/-- A path without a filter addresses the same target in every resource. -/
theorem Unfiltered.aims (hplain : Unfiltered r path)
    (h : resolveText r kind path resource = .ok t) :
    Aims r kind path t none ∧ ∀ other, t.inside none other = t := by
  have hself : ∀ other, t.inside none other = t := by
    intro other
    rw [Target.inside, Target.choosing, ← hplain.whole h]
  obtain ⟨c, haims⟩ := resolveText_aims h
  have hc : c = none := by
    cases c with
    | none => rfl
    | some c => cases hplain.whole (haims.resolved resource)
  exact ⟨hc ▸ haims, hself⟩

/-- The declaration of an extension shows in the list of schemas only. -/
theorem Target.declareIn_objectAt (ht : t.Lies r kind)
    (hkeys : ∀ urn ∈ t.extension, ∃ rest, keys = urn :: rest) (root : Members Json) :
    (t.declareIn (.obj root)).objectAt? keys = (Json.obj root).objectAt? keys := by
  cases hext : t.extension with
  | none => rw [Target.declareIn, hext]
  | some urn =>
    obtain ⟨e, he, rfl, -⟩ := ht.extension hext
    obtain ⟨rest, rfl⟩ := hkeys e.id hext
    obtain ⟨root', hroot, hothers⟩ := declare_besides e.id root
    rw [Target.declareIn, hext]
    simp only [hroot]
    rw [objectAt?, objectAt?, member?_eq_find?, member?_eq_find?]
    simp only [Json.root, members?, Option.getD_some,
      find?_of_besides hothers (registered_not_schemas he).2]

/-- An edit and the declaration of the extension, made again where the edit leaves its object as it
is, change nothing. -/
theorem Orderly.declared_again (ho : Orderly spelled once) (ht : t.Lies r kind)
    (hkeys : ∀ urn ∈ t.extension, ∃ rest, keys = urn :: rest)
    (hplace : apart ["schemas"] (keys ++ [name]) = true) {f : Edit (Members Json)}
    (h : resource.editAt keys f = .ok v) (honce : t.declareIn v = once) :
    ∃ later, f (resource.holderAt keys) = .ok later ∧ once.objectAt? keys = some later ∧
      (f later = .ok later → once.editAt keys f = .ok once ∧ t.declareIn once = once) := by
  obtain ⟨root, hroot, rfl⟩ := Json.editObject_eq_ok h
  obtain ⟨later, hlater, hat⟩ := editWithin_objectAt hroot
  rw [holderAt_root] at hlater
  have hfound : once.objectAt? keys = some later := by
    rw [← honce, Target.declareIn_objectAt ht hkeys, hat]
  refine ⟨later, hlater, hfound, fun hself => ⟨ho.editAt_self hplace hfound hself, ?_⟩⟩
  refine Target.declareIn_eq_self ho.1.1 (obj_root_of_objectAt? (by rw [hfound]; rfl)) ?_
  intro urn hext
  rw [← honce, Target.declareIn, hext]
  exact acknowledged_declare _ _

theorem Orderly.sorted_objectAt (ho : Orderly spelled resource)
    (hplace : apart ["schemas"] keys = true) {o : Members Json}
    (hat : resource.objectAt? keys = some o) : Sorted o := by
  have hobj := obj_root_of_objectAt? (by rw [hat]; rfl)
  rw [← hobj] at hat
  refine (MembersRule.Holds.objectAt ho (fun key hkey => ?_) hat).1
  cases keys with
  | nil => cases hkey
  | cons head rest =>
    cases hkey
    rwa [apart_singleton, Bool.not_eq_true'] at hplace

/-- The members of an extension that are added again change nothing. -/
theorem Target.add_members_again (haims : Aims r kind path t none) (hd : t.definition = none)
    (ho : Orderly spelled once) (honce : t.add value resource = .ok once) :
    t.add value once = .ok once := by
  obtain ⟨-, hext⟩ := haims.whole hd
  obtain ⟨hname, hschemas⟩ := haims.whole_address hd
  simp only [Target.add, hd] at honce ⊢
  obtain ⟨incoming, hincoming, honce⟩ := bind_eq_ok.mp honce
  obtain ⟨v, hv, honce⟩ := bind_eq_ok.mp honce
  have hdeclare (w : Json) : w.declare t.name = t.declareIn w := by rw [Target.declareIn, hext]
  have hkeys : ∀ urn ∈ t.extension, ∃ rest, [t.name] = urn :: rest := by
    rintro urn hurn
    cases hext.symm.trans hurn
    exact ⟨[], rfl⟩
  have hplace : apart ["schemas"] ([t.name] ++ [t.name]) = true := by
    rw [List.singleton_append, apart_singleton, hschemas]
    rfl
  rw [hdeclare] at honce
  obtain ⟨later, hlater, hat, hagain⟩ :=
    ho.declared_again haims.lies hkeys hplace hv (Except.ok.inj honce)
  cases hlater
  have hsorted : Sorted (setAll (resource.holderAt [t.name]) incoming) :=
    ho.sorted_objectAt (by rw [apart_singleton, hschemas]; rfl) hat
  have hheld := get?_setAll (checkMembers_checked hincoming) (resource.holderAt [t.name])
  obtain ⟨hself, hdeclared⟩ := hagain (congrArg Except.ok (setAll_of_get? hsorted hheld))
  refine bind_eq_ok.mpr ⟨incoming, hincoming, bind_eq_ok.mpr ⟨once, hself, ?_⟩⟩
  rw [hdeclare, hdeclared]

/-- An addition that is made again changes nothing exactly when no primary value that it adds
demotes another. -/
theorem Target.add_again (haims : Aims r kind path t none) (hwhole : t.selection = .whole)
    (ho : Orderly spelled once) (honce : t.add value resource = .ok once) :
    t.add value once = .ok once ↔
      ∀ a ∈ t.definition, t.AddsOne a value (resource.holderAt t.container) := by
  cases hd : t.definition with
  | none => exact iff_of_true (Target.add_members_again haims hd ho honce) (by simp)
  | some a =>
    have haddress : apart ["schemas"] (t.container ++ [t.name]) = true := haims.lies.apart_schemas
    have hpart : t.definition ≠ none := by simp [hd]
    have hkeys : ∀ urn ∈ t.extension, ∃ rest, t.container = urn :: rest :=
      fun urn hurn => haims.lies.container_of_part hurn hpart
    simp only [Target.add, hd, Option.mem_some_iff, forall_eq'] at honce ⊢
    obtain ⟨v, hv, honce⟩ := bind_eq_ok.mp honce
    obtain ⟨later, hlater, hat, hself⟩ :=
      ho.declared_again haims.lies hkeys haddress hv (Except.ok.inj honce)
    constructor
    · intro htwice
      obtain ⟨w, hw, htwice⟩ := bind_eq_ok.mp htwice
      obtain ⟨again, hagain, hat', -⟩ :=
        ho.declared_again haims.lies hkeys haddress hw (Except.ok.inj htwice)
      obtain rfl : later = again := Option.some.inj (hat.symm.trans hat')
      rw [holderAt, hat, Option.getD_some] at hagain
      exact Target.addsOne_of_again hwhole hlater rfl hagain rfl
    · intro hone
      have hsorted : Sorted later := by
        have hholder := (ho.holderAt haddress).1
        rwa [holderAt, hat, Option.getD_some] at hholder
      have hinner : ∀ o, find? later a.name = some (.obj o) → Sorted o := by
        intro o hfound
        rw [haims.named a hd] at haddress
        exact ho.sorted_objectAt haddress (objectAt?_snoc hat hfound)
      obtain ⟨hedit, hdeclared⟩ :=
        hself (Target.addIn_self hwhole hlater hsorted hinner hone)
      exact bind_eq_ok.mpr ⟨once, hedit, congrArg Except.ok hdeclared⟩

/-! ### Null, which removes -/

/-- The elements that the removal of a sub-attribute leaves have lost it. -/
theorem Target.removal_items {a sub : Attribute} {first later : Members Json} {items : List Json}
    (hwhole : t.selection = .whole) (hsub : t.sub = some sub) (hone : SpelledOnce first a.name)
    (hones : ∀ w ∈ listAt first a.name, SpelledOnce w.root sub.name)
    (hfirst : t.removal a none first = .ok later)
    (hitems : find? later a.name = some (.arr items)) :
    editSelected (fun _ => true) (dropSub sub) 0 items = .ok items := by
  rcases Target.removal_eq_ok hfirst with ⟨-, hnone, -⟩ | ⟨-, hpruned⟩
  · simp [hsub] at hnone
  cases hpruned with
  | unlisted hlist => exact absurd hitems (hlist items)
  | emptied => simp [(hone.putHeld _ _).find?_remove] at hitems
  | @kept held v rest hheld hedited =>
    rw [find?_putHeld_self] at hitems
    cases hitems
    simp only [Target.removeElements, hsub, hwhole, Selection.chosen] at hedited
    refine editSelected_eq_self fun i w hw _ => ?_
    obtain ⟨u, hu, hdrop⟩ := editSelected_getElem? hedited hw
    rw [listAt_of_find? hheld] at hones
    exact dropSub_dropSub (hones u (List.mem_of_getElem? hu)) hdrop

/-- The removal of a whole attribute, or of a sub-attribute of all its elements, can be made again
on what it has left. -/
theorem Target.removal_succeeds {a : Attribute} {first later holder : Members Json}
    (hwhole : t.selection = .whole) (hone : SpelledOnce first a.name)
    (hones : ∀ sub, t.sub = some sub → ∀ w ∈ listAt first a.name, SpelledOnce w.root sub.name)
    (hfirst : t.removal a none first = .ok later)
    (hleft : find? holder a.name = none ∨ find? holder a.name = find? later a.name) :
    ∃ again, t.removal a none holder = .ok again := by
  obtain ⟨edited, hremove, -⟩ := bind_eq_ok.mp hfirst
  have hsuffices (h : ∃ again, t.removeIn a none holder = .ok again) :
      ∃ again, t.removal a none holder = .ok again := by
    obtain ⟨again, hagain⟩ := h
    exact ⟨_, bind_eq_ok.mpr ⟨again, hagain, rfl⟩⟩
  apply hsuffices
  cases hsub : t.sub with
  | none =>
    simp only [Target.removeIn, hwhole, hsub, guard_eq_ok] at hremove ⊢
    obtain ⟨hrequired, -⟩ := hremove
    have hnone : find? holder a.name = none := by
      rcases hleft with hnone | hfound
      · exact hnone
      · rcases Target.removal_eq_ok hfirst with ⟨-, -, rfl⟩ | ⟨hpart, -⟩
        · rw [hfound, dropEmptyList, hone.find?_remove]
          exact hone.find?_remove
        · exact absurd hsub (hpart hwhole)
    exact ⟨_, hrequired, by simp [hnone]; rfl⟩
  | some sub =>
    simp only [Target.removeIn, hwhole, hsub, guard_eq_ok] at hremove ⊢
    obtain ⟨hrequired, -⟩ := hremove
    refine exists_and_left.mpr ⟨hrequired, ?_⟩
    unfold editHeldList
    split
    case h_2 => exact ⟨holder, rfl⟩
    case h_1 items hitems =>
      have hfound := hleft.resolve_left (by simp [hitems])
      have hself := Target.removal_items hwhole hsub hone (hones sub hsub) hfirst
        (hfound.symm.trans hitems)
      exact ⟨_, edit_eq_ok.mpr
        ⟨.arr items, by simp [hitems, Json.editList, hself, Except.map], rfl⟩⟩

/-- The removal of a whole attribute, or of a sub-attribute of all its elements, changes nothing
where the attribute is not held, or where it is held as one has left it. -/
theorem Target.removal_self {a : Attribute} {first later holder : Members Json}
    (hwhole : t.selection = .whole) (hone : SpelledOnce first a.name)
    (hones : ∀ sub, t.sub = some sub → ∀ w ∈ listAt first a.name, SpelledOnce w.root sub.name)
    (hfirst : t.removal a none first = .ok later) (hsorted : Sorted holder)
    (hleft : under holder a.name = [] ∨ under holder a.name = under later a.name) :
    t.removal a none holder = .ok holder := by
  have hchoosing (items : List Json) : t.choosing none items = t := by
    rw [Target.choosing, ← hwhole]
  rcases hleft with hnil | hunder
  · have hnone := under_eq_nil_iff.mp hnil
    obtain ⟨again, hagain⟩ := Target.removal_succeeds hwhole hone hones hfirst (.inl hnone)
    rw [hagain, removal_of_find?_eq_none hnone hagain]
  · obtain ⟨again, hagain⟩ :=
      Target.removal_succeeds hwhole hone hones hfirst (.inr (find?_of_under hunder))
    have hsame : again = holder := removal_again (c := none) hone hones
      (by rwa [hchoosing]) hsorted hunder (by simp [hchoosing, hwhole]) (by rwa [hchoosing])
    rw [hagain, hsame]

/-- A removal that leaves the object as it is in which the attribute is held leaves the resource as
it is, where no empty extension is held. -/
theorem Target.remove_self {a : Attribute} (ho : Orderly spelled resource)
    (haddress : apart ["schemas"] (t.container ++ [t.name]) = true) (hd : t.definition = some a)
    (hwhole : t.selection = .whole)
    (hself : ∀ o, resource.objectAt? t.container = some o → t.removal a none o = .ok o)
    (hkept : ∀ urn ∈ t.extension, (resource.objectAt? t.container).isSome = true →
      resource.member? urn ≠ some (.obj [])) :
    t.remove r kind none resource = .ok resource := by
  have hmatch : liftFault t.requireMatch = .ok () := by
    simp [Target.requireMatch, hwhole, liftFault]
  simp only [Target.remove, hd]
  refine bind_eq_ok.mpr ⟨(), hmatch, ?_⟩
  cases hat : resource.objectAt? t.container with
  | none => rfl
  | some o =>
    have hedited := ho.editAt_self haddress hat (hself o hat)
    have hdropped := Target.dropIn_eq_self fun urn hext => hkept urn hext (by rw [hat]; rfl)
    refine bind_eq_ok.mpr ⟨resource, hedited, ?_⟩
    cases hext : t.extension with
    | none => rfl
    | some urn =>
      rw [Target.dropIn, hext] at hdropped
      exact congrArg Except.ok hdropped

/-- Null that is assigned again changes nothing. -/
theorem Aims.assign_null_again (haims : Aims r kind path t none) (hwhole : t.selection = .whole)
    (ho : Orderly True resource) (hnull : value.isNull = true)
    (honce : (PatchStep.assign .replace path value).apply r kind resource = .ok once) :
    (PatchStep.assign .replace path value).apply r kind once = .ok once := by
  have hself (other : Json) : t.inside none other = t := by
    rw [Target.inside, Target.choosing, ← hwhole]
  have hstep (other : Json) : (PatchStep.assign .replace path value).apply r kind other =
      t.remove r kind none other := by
    simp [PatchStep.apply, assignAt, haims.resolved, hself, hnull, bind, Except.bind]
  have hcourse := haims.course honce
  have hdone := hcourse.done haims ho fun _ => trivial
  have ho' : Orderly True once := ho.step honce
  have haddress : apart ["schemas"] (t.container ++ [t.name]) = true := haims.lies.apart_schemas
  rw [hstep] at honce ⊢
  cases hcourse with
  | written _ hpresent | replaced _ hpresent => simp [hnull] at hpresent
  | absent => exact honce
  | dropped hd =>
    simp only [Target.remove, hd, guard_eq_ok] at honce ⊢
    cases hdone with
    | written _ hpresent | replaced hd' hpresent => simp [hnull] at hpresent
    | removed hd' => simp [hd] at hd'
    | dropped _ _ hgone hundeclared =>
      exact ⟨honce.1, congrArg Except.ok (dropMember_undeclare_eq_self ho'.1.1 hgone hundeclared)⟩
  | @removed a root' hd _ hfound _ hedit =>
    have hplace : apart ["schemas"] (t.container ++ [a.name]) = true := by
      rwa [haims.named a hd] at haddress
    have hfirst := editWithin_holderAt hedit
    rw [holderAt_root, hself] at hfirst
    generalize t.dropIn (.obj root') = once at *
    cases hdone with
    | written hd' | dropped hd' => simp [hd] at hd'
    | replaced _ hpresent => simp [hnull] at hpresent
    | @removed b hb _ hleft hkept =>
      obtain rfl : a = b := Option.some.inj (hd.symm.trans hb)
      refine Target.remove_self ho' haddress hd hwhole (fun o hat => ?_) hkept
      -- what a removal has left, or nothing at all
      have hholder : once.holderAt t.container = o := by rw [holderAt, hat, Option.getD_some]
      have hsorted : Sorted o := hholder ▸ (ho'.holderAt haddress).1
      rw [Json.slot, hholder, haims.named a hd] at hleft
      rcases hleft with hnil | ⟨first, later, hone, hones, hremove, hunder⟩
      · have hone := (ho.holderAt hplace).2 trivial a.name
        exact Target.removal_self hwhole hone
          (fun sub _ w hw => ho.listAt hplace w hw trivial _) hfirst hsorted (.inl hnil)
      · rw [Target.choosing, ← hwhole] at hremove
        exact Target.removal_self hwhole hone hones hremove hsorted (.inr hunder)

/-- Null adds no values. -/
theorem Target.addsOne_of_null {a : Attribute} {holder : Members Json}
    (hnull : value.isNull = true) : t.AddsOne a value holder := by
  obtain rfl := eq_null hnull
  intro _ hmulti items hitems
  have hnone : ∀ items, checkElements a .null ≠ .ok items := by
    intro items hchecked
    refine checkValue_null (a := a) (.arr items) ?_
    rw [checkValue_several hmulti, hchecked]
    rfl
  cases hchecked : checkElements a .null with
  | ok items => exact absurd hchecked (hnone items)
  | error e => simp [hchecked, Except.toOption] at hitems

end

theorem orderly_of_allObjects {resource : Json} {spelled : Prop}
    (hordered : resource.AllObjects Sorted)
    (hspelled : spelled → resource.AllObjects fun ms => ∀ name, SpelledOnce ms name) :
    Orderly spelled resource := by
  have hall : resource.AllObjects fun ms => Sorted ms ∧ (spelled → ∀ name, SpelledOnce ms name) :=
    fun o hmem => ⟨hordered o hmem, fun h => hspelled h o hmem⟩
  have hroot := (orderly_rule spelled).holds_root hall
  exact ⟨hroot.1, fun m hm _ => hroot.2 m hm rfl⟩

/-- An addition at a path without a value filter that has been applied changes nothing when it is
applied again exactly when the primary ones among the values that it adds to the list of an
attribute were all held, or are all equal. Where null removes a value, it is held in one
spelling. -/
theorem Operation.add_twice {kind : Kind} {path : String} {value resource once : Json}
    (hordered : resource.AllObjects Sorted)
    (hspelled : value.isNull = true → resource.AllObjects fun ms => ∀ name, SpelledOnce ms name)
    (hplain : Unfiltered .standard path)
    (honce : (Operation.add (some path) value).apply .standard kind resource = .ok once) :
    (Operation.add (some path) value).apply .standard kind once = .ok once ↔
      ∀ t ∈ (resolveText .standard kind path resource).toOption, ∀ a ∈ t.definition,
        t.AddsOne a value (resource.holderAt t.container) := by
  have ho := orderly_of_allObjects hordered hspelled
  have happly (other : Json) : (Operation.add (some path) value).apply .standard kind other =
      (PatchStep.assign .add path value).apply .standard kind other := rfl
  rw [happly] at honce ⊢
  obtain ⟨t, ht, hadd⟩ := bind_eq_ok.mp honce
  have hwhole := hplain.whole ht
  obtain ⟨haims, hself⟩ := hplain.aims ht
  simp only [ht, Except.toOption, Option.mem_some_iff, forall_eq']
  cases hnull : value.isNull with
  | true =>
    -- adding null is the same as replacing by it
    have hreplace (other : Json) : (PatchStep.assign .add path value).apply .standard kind other =
        (PatchStep.assign .replace path value).apply .standard kind other := by
      simp [PatchStep.apply, assignAt, hnull]
    rw [hreplace] at honce ⊢
    have hspelled : Orderly True resource := by simpa [hnull] using ho
    exact iff_of_true (haims.assign_null_again hwhole hspelled hnull honce)
      fun _ _ => Target.addsOne_of_null hnull
  | false =>
    simp only [hnull, Bool.false_eq_true, if_false] at hadd
    have hagain : (PatchStep.assign .add path value).apply .standard kind once =
        t.add value once := by
      simp [PatchStep.apply, assignAt, haims.resolved, hself, hnull, bind, Except.bind]
    rw [hagain]
    exact Target.add_again haims hwhole (ho.step honce) hadd

/-- A user who has one address, which is the primary one. -/
def bjAddress : Json :=
  .obj [("emails", .arr [.obj [("primary", .bool true), ("value", .str "a")]]),
    ("userName", .str "bj")]

/-- Two addresses, the second of which is to be the primary one. -/
def moreAddresses : Json :=
  .arr [.obj [("value", .str "b")], .obj [("primary", .bool true), ("value", .str "c")]]

/-- The user with all three. -/
def bjAddresses : Json :=
  .obj [("emails", .arr [.obj [("primary", .bool false), ("value", .str "a")],
      .obj [("value", .str "b")], .obj [("primary", .bool true), ("value", .str "c")]]),
    ("userName", .str "bj")]

theorem add_twice_addresses :
    (Operation.add (some "emails") moreAddresses).apply .standard .user bjAddress =
        .ok bjAddresses ∧
      (Operation.add (some "emails") moreAddresses).apply .standard .user bjAddresses =
        .ok bjAddresses := by
  have hordered : bjAddress.AllObjects Sorted :=
    show ∀ o ∈ bjAddress.objects, List.Pairwise (fun a b => a.1 < b.1) o by decide
  have hplain : Unfiltered .standard "emails" := by decide
  have honce : (Operation.add (some "emails") moreAddresses).apply .standard .user bjAddress =
      .ok bjAddresses := by decide
  have hpresent : ¬moreAddresses.isNull = true := by decide
  have hone : ∀ t ∈ (resolveText .standard .user "emails" bjAddress).toOption,
      ∀ a ∈ t.definition, t.AddsOne a moreAddresses (bjAddress.holderAt t.container) := by
    decide
  exact ⟨honce, (Operation.add_twice hordered (fun hnull => absurd hnull hpresent) hplain
    honce).mpr hone⟩

/-- Of two primary addresses the second demotes the first, which is then added once more. -/
theorem add_demotes_added :
    let marked (value : String) : Json := .obj [("primary", .bool true), ("value", .str value)]
    let unmarked (value : String) : Json := .obj [("primary", .bool false), ("value", .str value)]
    let addition := Operation.add (some "emails") (.arr [marked "a", marked "b"])
    let once : Json := .obj [("emails", .arr [unmarked "a", marked "b"]), ("userName", .str "bj")]
    addition.apply .standard .user (.obj [("userName", .str "bj")]) = .ok once ∧
      addition.apply .standard .user once ≠ .ok once := by
  decide

end Roster
