import Roster.Proofs.Patch.Respelled
import Roster.Proofs.Patch.SeedNames
import Roster.Proofs.Patch.Selected

/-! Operations at two spellings of one path, which differ in the case of letters outside the quotes.
They do the same to a resource, or fail with the same error type, but for an addition whose filter
selects nothing: the names in the filter are then names of the new element. -/

namespace Roster

open Members

/-- Two computations that give the same, or fail with the same error type. -/
abbrev SameOutcome {α : Type} (x y : Except PatchFault α) : Prop :=
  Mirrors PatchFault.type id x y

/-! ### Edits of a part -/

section

variable {f f' : Edit (Members Json)}

theorem SameOutcome.edit {name : String} {f f' : Edit Json} (h : ∀ v, SameOutcome (f v) (f' v))
    (ms : Members Json) : SameOutcome (Members.edit name f ms) (Members.edit name f' ms) :=
  (h _).map fun _ _ => rfl

theorem SameOutcome.editObject (name : String) (h : ∀ ms, SameOutcome (f ms) (f' ms)) (v : Json) :
    SameOutcome (Json.editObject name f v) (Json.editObject name f' v) := by
  cases v with
  | null => exact (h []).map fun _ _ => rfl
  | obj members => exact (h members).map fun _ _ => rfl
  | _ => exact .error rfl

theorem SameOutcome.editWithin (h : ∀ ms, SameOutcome (f ms) (f' ms)) (keys : List String)
    (ms : Members Json) :
    SameOutcome (Members.editWithin keys f ms) (Members.editWithin keys f' ms) := by
  induction keys generalizing ms with
  | nil => exact h ms
  | cons key keys ih => exact .edit (SameOutcome.editObject key ih) ms

theorem SameOutcome.editAt (h : ∀ ms, SameOutcome (f ms) (f' ms)) (keys : List String)
    (resource : Json) : SameOutcome (resource.editAt keys f) (resource.editAt keys f') :=
  .editObject "resource" (SameOutcome.editWithin h keys) resource

end

/-! ### The element that a filter asks for -/

section

variable {t t' : Target} {a : Attribute} {value : Json} {path : String}

/-- The values that the filter of a target asks for, if it asks for equalities alone. -/
def Target.tests? (t : Target) : Option (List (String × Json)) :=
  (t.filter.bind Filter.equalitySeeds?).map (List.map fun p => (p.1, p.2.toJson))

/-- The members that a new element is given beside those of the filter. -/
def Target.given? (t : Target) (value : Json) : Option (Members Json) :=
  match t.sub, value with
  | some sub, value => some [(sub.name, value)]
  | none, .obj members => some (Members.ofList members)
  | none, _ => none

theorem Target.seedElement_eq (t : Target) (a : Attribute) (value : Json) :
    t.seedElement a value =
      match t.tests? with
      | none => .error (.nothingMatched t.path)
      | some tests =>
        match t.given? value with
        | none => .error (.elementNotObject a.name)
        | some given => checkSingle a (.obj (ofList (tests ++ given))) := by
  have hone (pairs : List (String × Json)) (name : String) (v : Json) :
      Members.insert (ofList pairs) name v = ofList (pairs ++ [(name, v)]) :=
    merge_ofList pairs [(name, v)]
  unfold seedElement tests? given?
  cases t.filter.bind Filter.equalitySeeds? with
  | none => rfl
  | some seeds =>
    cases t.sub with
    | some sub => simp only [Option.map_some, hone]
    | none =>
      cases value with
      | obj members => simp only [Option.map_some, merge_ofList, ofList_append_ofList]
      | _ => rfl

/-- Whether a new element depends on the spelling of the names in a filter: it does not, where each
of the values that the filter asks for is decided. -/
def Target.SeedsDecided (t : Target) (a : Attribute) (value : Json) : Prop :=
  ∀ tests given, t.tests? = some tests → t.given? value = some given →
    ∀ p ∈ tests, Decided a.subAttributes tests given p

theorem Filter.equalitySeeds?_respelled (f : Filter) :
    f.respelled.equalitySeeds? =
      f.equalitySeeds?.map (List.map fun p => (Roster.respelled p.1, p.2)) := by
  induction f with
  | compare path op v =>
    cases op with
    | eq =>
      simp only [Filter.respelled, equalitySeeds?, AttributePath.respelled, Option.isNone_map]
      split_ifs <;> rfl
    | _ => rfl
  | and f g ihf ihg =>
    simp only [Filter.respelled, equalitySeeds?, ihf, ihg]
    cases f.equalitySeeds? with
    | none => rfl
    | some seeds =>
      cases g.equalitySeeds? with
      | none => rfl
      | some more => simp
  | group f ih => exact ih
  | _ => rfl

/-- Targets of one respelled form differ in their texts alone. -/
theorem Target.eq_of_respelled (h : t.respelled path = t'.respelled path) :
    t' = { t with path := t'.path, filter := t'.filter } ∧
      t.filter.map Filter.respelled = t'.filter.map Filter.respelled := by
  obtain ⟨p, container, name, definition, members, selection, sub, filter, extension⟩ := t
  obtain ⟨p', container', name', definition', members', selection', sub', filter', extension'⟩ := t'
  simp only [Target.respelled, Target.mk.injEq] at h ⊢
  obtain ⟨-, rfl, rfl, rfl, rfl, rfl, rfl, hfilter, rfl⟩ := h
  simp [hfilter]

theorem among_of_map_eq {tests tests' : List (String × Json)}
    (h : tests.map (fun p => (respelled p.1, p.2)) = tests'.map fun p => (respelled p.1, p.2)) :
    Among tests tests' := by
  intro p hp
  have hmem := h ▸ List.mem_map_of_mem (f := fun p : String × Json => (respelled p.1, p.2)) hp
  obtain ⟨p', hp', heq⟩ := List.mem_map.mp hmem
  obtain ⟨hname, hvalue⟩ := Prod.mk.inj heq
  exact ⟨p', hp', SameSpelling.sameName hname.symm, hvalue⟩

theorem Target.tests?_respelled
    (h : t.filter.map Filter.respelled = t'.filter.map Filter.respelled) :
    t.tests?.map (List.map fun p => (Roster.respelled p.1, p.2)) =
      t'.tests?.map (List.map fun p => (Roster.respelled p.1, p.2)) := by
  have hmap (t : Target) : t.tests?.map (List.map fun p => (Roster.respelled p.1, p.2)) =
      ((t.filter.map Filter.respelled).bind Filter.equalitySeeds?).map
        (List.map fun p => (p.1, p.2.toJson)) := by
    unfold Target.tests?
    cases t.filter with
    | none => rfl
    | some f =>
      simp only [Option.bind_some, Option.map_some, Filter.equalitySeeds?_respelled, Option.map_map]
      congr 1
      funext seeds
      simp
  rw [hmap, hmap, h]

theorem Target.sorted_given? {given : Members Json} (h : t.given? value = some given) :
    Sorted given := by
  unfold given? at h
  split at h
  · cases h
    exact List.pairwise_singleton _ _
  · cases h
    exact sorted_ofList _
  · cases h

/-- No object is a value of an attribute that is not complex. -/
theorem checkSingle_obj_of_ne_complex (hc : a.type ≠ .complex) (ms : Members Json) :
    checkSingle a (.obj ms) = .error (.wrongType a.name a.type (.obj ms)) := by
  rw [checkSingle_of_ne_complex hc, checkScalar]
  cases a.type <;> rfl

theorem Target.seedElement_sameOutcome (h : t.respelled path = t'.respelled path)
    (hs : t.SeedsDecided a value) :
    SameOutcome (t.seedElement a value) (t'.seedElement a value) := by
  obtain ⟨ht, hfilter⟩ := eq_of_respelled h
  have htests := tests?_respelled hfilter
  have hgiven : t'.given? value = t.given? value := by
    rw [ht]
    rfl
  rw [seedElement_eq, seedElement_eq, hgiven]
  cases htests₁ : t.tests? with
  | none =>
    rw [htests₁, Option.map_none, eq_comm, Option.map_eq_none_iff] at htests
    rw [htests]
    exact .error rfl
  | some tests =>
    rw [htests₁, Option.map_some, eq_comm, Option.map_eq_some_iff] at htests
    obtain ⟨tests', htests₂, hmap⟩ := htests
    rw [htests₂]
    cases hgiven₁ : t.given? value with
    | none => exact .error rfl
    | some given =>
      by_cases hc : a.type = .complex
      -- the two elements differ in the spelling of the tests alone
      · simp only [checkSingle_complex hc]
        exact (checkMembers_tests (among_of_map_eq hmap.symm) (among_of_map_eq hmap)
          (sorted_given? hgiven₁) (hs tests given htests₁ hgiven₁)).map fun _ _ => rfl
      · simp only [checkSingle_obj_of_ne_complex hc]
        exact .error rfl

/-! ### Targets of two spellings -/

variable {r : Registry} {kind : Kind} {resource : Json}

theorem Target.addIn_sameOutcome (h : t.respelled path = t'.respelled path)
    (hs : t.selection = .elements [] → t.SeedsDecided a value) (holder : Members Json) :
    SameOutcome (t.addIn a value holder) (t'.addIn a value holder) := by
  have hfields : t'.selection = t.selection ∧ t'.sub = t.sub := by
    rw [(eq_of_respelled h).1]
    exact ⟨rfl, rfl⟩
  unfold addIn
  rw [hfields.1, hfields.2]
  -- the filter is looked at again only where it has selected nothing
  cases hselection : t.selection with
  | whole => cases t.sub <;> exact .refl _
  | elements indices =>
    cases indices with
    | nil => exact (seedElement_sameOutcome h (hs hselection)).bind fun element _ => .refl _
    | cons i rest => cases t.sub <;> exact .refl _

theorem Target.requireMatch_sameOutcome (h : t.respelled path = t'.respelled path) :
    SameOutcome (liftFault t.requireMatch) (liftFault t'.requireMatch) := by
  rw [(eq_of_respelled h).1]
  unfold requireMatch
  split_ifs
  · exact .error rfl
  · exact .ok ()

theorem Target.add_sameOutcome (h : t.respelled path = t'.respelled path)
    (hs : ∀ a, t.definition = some a → t.selection = .elements [] → t.SeedsDecided a value) :
    SameOutcome (t.add value resource) (t'.add value resource) := by
  have hdeclare (resource : Json) : t'.declareIn resource = t.declareIn resource := by
    rw [(eq_of_respelled h).1]
    rfl
  have hfields : t'.definition = t.definition ∧ t'.name = t.name ∧ t'.members = t.members ∧
      t'.container = t.container := by
    rw [(eq_of_respelled h).1]
    exact ⟨rfl, rfl, rfl, rfl⟩
  obtain ⟨hdefinition, hname, hmembers, hcontainer⟩ := hfields
  unfold add
  simp only [hdefinition, hname, hmembers, hcontainer, hdeclare]
  cases ha : t.definition with
  | none => exact .refl _
  | some a =>
    refine (SameOutcome.editAt (addIn_sameOutcome h (hs a ha)) _ _).bind fun v _ => ?_
    exact .refl _

theorem Target.replace_sameOutcome (h : t.respelled path = t'.respelled path) :
    SameOutcome (t.replace value resource) (t'.replace value resource) := by
  have hmatch := requireMatch_sameOutcome h
  rw [(eq_of_respelled h).1] at hmatch ⊢
  unfold replace
  cases t.definition with
  | none => exact .refl _
  | some a => exact hmatch.bind fun _ _ => .refl _

theorem Target.remove_sameOutcome (h : t.respelled path = t'.respelled path)
    (value : Option Json) : SameOutcome (t.remove r kind value resource)
      (t'.remove r kind value resource) := by
  have hmatch := requireMatch_sameOutcome h
  rw [(eq_of_respelled h).1] at hmatch ⊢
  unfold remove
  cases t.definition with
  | none => exact .refl _
  | some a => exact hmatch.bind fun _ _ => .refl _

end

/-! ### Operations -/

namespace Operation

section

variable {r : Registry} {kind : Kind} {op : Operation} {p q : String} {value resource : Json}

/-- The operation at another path. -/
def withPath (op : Operation) (path : String) : Operation :=
  match op with
  | .add _ value => .add (some path) value
  | .replace _ value => .replace (some path) value
  | .remove _ value => .remove (some path) value

/-- Where an operation makes a new element, that element does not depend on the spelling of the
names in the filter. -/
def SeedsDecided (r : Registry) (kind : Kind) (op : Operation) (resource : Json) : Prop :=
  match op with
  | .add (some path) value => value.isNull = false → ∀ t a,
      resolveText r kind path resource = .ok t → t.definition = some a →
        t.selection = .elements [] → t.SeedsDecided a value
  | _ => True

theorem isBlankText_congr (h : SameSpelling p q) : isBlankText p = isBlankText q := by
  have hblank (s : String) : isBlankText (respelled s) = isBlankText s := by
    unfold isBlankText
    rw [toList_respelled, all_foldUnquoted isBlank_toLower]
  rw [← hblank p, ← hblank q, show respelled p = respelled q from h]

theorem resolveText_bind {α : Type} {f f' : Target → Except PatchFault α} (h : SameSpelling p q)
    (hf : ∀ t t' path, resolveText r kind p resource = .ok t →
      t.respelled path = t'.respelled path → SameOutcome (f t) (f' t')) :
    SameOutcome (resolveText r kind p resource >>= f) (resolveText r kind q resource >>= f') := by
  rcases resolveText_sameSpelling r kind h resource with
    ⟨e, e', he, he', htype⟩ | ⟨t, t', path, ht, ht', hsame⟩
  · rw [he, he']
    exact .error htype
  · rw [ht, ht']
    exact hf t t' path ht hsame

theorem assignAt_sameOutcome (how : Assignment) (h : SameSpelling p q)
    (hs : how = .add → SeedsDecided r kind (.add (some p) value) resource) :
    SameOutcome (assignAt r kind how p value resource) (assignAt r kind how q value resource) := by
  refine resolveText_bind h fun t t' path ht hsame => ?_
  refine .test (fun _ => Target.remove_sameOutcome hsame none) fun hnull => ?_
  cases how with
  | add => exact Target.add_sameOutcome hsame fun a => hs rfl (by simpa using hnull) t a ht
  | replace => exact Target.replace_sameOutcome hsame

/-- An operation does the same to a resource, or fails with the same error type, at two paths that
differ in the case of letters outside their quotes, provided that an element which it makes does not
depend on the spelling of the names in the filter. -/
theorem apply_sameSpelling (r : Registry) (kind : Kind) (op : Operation) (h : SameSpelling p q)
    (resource : Json) (hs : (op.withPath p).SeedsDecided r kind resource) :
    ((op.withPath p).apply r kind resource).mapError PatchFault.type =
      ((op.withPath q).apply r kind resource).mapError PatchFault.type := by
  suffices hsame : SameOutcome ((op.withPath p).apply r kind resource)
      ((op.withPath q).apply r kind resource) by
    rw [hsame.mapError_eq]
    cases (op.withPath p).apply r kind resource <;> rfl
  cases op with
  | add path value => exact assignAt_sameOutcome .add h fun _ => hs
  | replace path value => exact assignAt_sameOutcome .replace h fun hadd => by cases hadd
  | remove path value =>
    refine Mirrors.bind (g := id) ?_ fun _ _ => ?_
    · simp only [withPath, check, Option.all_some, isBlankText_congr h]
      exact .refl _
    · exact resolveText_bind h fun t t' path _ hsame => Target.remove_sameOutcome hsame value

/-- An address for work that is primary, of which the given value says that it is for home. -/
theorem apply_sameSpelling_emails :
    let p := "emails[TYPE eq \"work\" and Primary eq true]"
    let q := "Emails[type eq \"work\" AND primary EQ true]"
    let op := Operation.add none (.obj [("type", .str "home"), ("value", .str "bj@example.org")])
    let resource := Json.obj [("userName", .str "bj")]
    SameSpelling p q ∧ (op.withPath p).SeedsDecided .standard .user resource ∧
      ((op.withPath p).apply .standard .user resource).mapError PatchFault.type =
        ((op.withPath q).apply .standard .user resource).mapError PatchFault.type := by
  intro p q op resource
  have hspelling : SameSpelling p q := by decide +kernel
  have hdecided : (op.withPath p).SeedsDecided .standard .user resource := by
    intro _ t a ht ha _ tests given htests hgiven
    have hall : (resolveText .standard .user p resource).toOption.all (fun t =>
        decide (t.tests? = some [("TYPE", .str "work"), ("Primary", .bool true)]) &&
          (t.sub.isNone && t.definition.all fun a =>
            (findAttribute? a.subAttributes "TYPE").any fun d =>
              (checkValue d (.str "work")).toBool)) = true := by
      decide +kernel
    rw [show resolveText .standard .user p resource = .ok t from ht] at hall
    simp only [Except.toOption, Option.all_some, Bool.and_eq_true, decide_eq_true_eq, ha,
      Option.isNone_iff_eq_none, Option.any_eq_true] at hall
    obtain ⟨htested, hsub, d, hd, hvalue⟩ := hall
    obtain rfl := Option.some.inj (htested.symm.trans htests)
    have hown : t.given? (.obj [("type", .str "home"), ("value", .str "bj@example.org")]) =
        some [("type", .str "home"), ("value", .str "bj@example.org")] := by
      simp only [Target.given?, hsub]
      decide +kernel
    obtain rfl := Option.some.inj (hown.symm.trans hgiven)
    have hpass : PassesCheck a.subAttributes ("TYPE", .str "work") :=
      ⟨d, hd, .inr (.inr (exists_ok hvalue))⟩
    -- the type is given otherwise, under a name in small letters, and nothing else says primary
    refine List.forall_mem_cons.mpr ⟨?_, List.forall_mem_cons.mpr ⟨?_, by simp⟩⟩
    · exact .outweighed hpass List.mem_cons_self (by decide +kernel) (by decide +kernel) rfl
    · exact .agreed (by decide +kernel)
  exact ⟨hspelling, hdecided, apply_sameSpelling .standard .user op hspelling resource hdecided⟩

/-- The street that a filter asks for is held under its name as it stands in the filter, next to the
street that is added, and behind it where that name has small letters only. -/
theorem apply_spelling_kept :
    let p := "addresses[streetaddress eq \"x\"].streetAddress"
    let q := "addresses[streetAddress eq \"x\"].streetAddress"
    let op := Operation.add none (.str "y")
    let resource := Json.obj [("userName", .str "bj")]
    let streets (s : String) : Json :=
      .obj [("addresses", .arr [.obj [("streetAddress", .str s)]]), ("userName", .str "bj")]
    let outcome (path : String) : Except ErrorType Json :=
      ((op.withPath path).apply .standard .user resource).mapError PatchFault.type
    SameSpelling p q ∧ outcome p = .ok (streets "x") ∧ outcome q = .ok (streets "y") ∧
      outcome p ≠ outcome q := by
  decide +kernel

end

end Operation

end Roster
