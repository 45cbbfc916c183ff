import Roster.Proofs.Patch.Again
import Roster.Proofs.Patch.Canonical
import Roster.Proofs.Patch.Slots

/-! What a path aims at. It is the same target in every resource, but for the elements that its
filter selects, and it lies under an attribute of the kind or under an extension. -/

namespace Roster

open Members Json

/-! ### One path in several resources -/

/-- The names that lead to what a target addresses, its own name last. -/
def Target.address (t : Target) : List String :=
  t.container ++ [t.name]

/-- The target with the elements that a condition selects in a resource. -/
def Target.inside (t : Target) (c : Option Condition) (resource : Json) : Target :=
  t.choosing c (listAt (resource.holderAt t.container) t.name)

/-- A path addresses one target in every resource, but for the elements that are selected. -/
structure Aims (r : Registry) (kind : Kind) (path : String) (t : Target) (c : Option Condition) :
    Prop where
  resolved : ∀ resource, resolveText r kind path resource = .ok (t.inside c resource)
  named : ∀ a ∈ t.definition, t.name = a.name
  whole : t.definition = none → t.container = [] ∧ t.extension = some t.name

theorem resolveSegments_aims {r : Registry} {kind : Kind} {path : String} {resource : Json}
    {extension : Option String} {scope : Scope} {container : List String} {segments : List Segment}
    {t : Target}
    (h : resolveSegments r kind path resource extension scope container segments = .ok t) :
    (∃ a, t.definition = some a ∧ t.name = a.name) ∧ ∃ c, ∀ other,
      resolveSegments r kind path other extension scope container segments =
        .ok (t.inside c other) := by
  induction segments generalizing scope container with
  | nil => simp [resolveSegments] at h
  | cons s rest ih =>
    simp only [resolveSegments] at h ⊢
    split_ifs at h ⊢
    split at h
    · simp at h
    · split at h
      · simp at h
      · rename_i a _
        rw [guard_eq_ok, guard_eq_ok] at h
        obtain ⟨hro, hfilter, h⟩ := h
        simp only [if_neg hro, if_neg hfilter]
        split_ifs at h with hdeeper hcomplex
        · simp only [if_pos hdeeper, if_neg hcomplex]
          exact ih h
        · simp only [if_neg hdeeper]
          obtain ⟨filter, hf, h⟩ := bind_eq_ok.mp h
          obtain ⟨selection, hsel, h⟩ := bind_eq_ok.mp h
          obtain ⟨sub, hsub, h⟩ := bind_eq_ok.mp h
          cases h
          refine ⟨⟨a, rfl, rfl⟩, ?_⟩
          cases filter with
          | none =>
            cases hsel
            refine ⟨none, fun other => ?_⟩
            simp [hf, Attribute.select, hsub, bind, Except.bind, Target.inside, Target.choosing]
          | some f =>
            obtain ⟨c, hc, hsel⟩ := bind_eq_ok.mp hsel
            cases hsel
            refine ⟨some c, fun other => ?_⟩
            simp [hf, Attribute.select, hc, hsub, bind, Except.bind, Target.inside, Target.choosing,
              follow?_eq]

theorem resolve_aims {r : Registry} {kind : Kind} {e : Expression} {resource : Json} {t : Target}
    (h : e.resolve r kind resource = .ok t) :
    (∃ c, ∀ other, e.resolve r kind other = .ok (t.inside c other)) ∧
      (∀ a ∈ t.definition, t.name = a.name) ∧
      (t.definition = none → t.container = [] ∧ t.extension = some t.name) := by
  -- below an extension, or without one, the segments decide
  have within {extension : Option String} {scope : Scope} {container : List String}
      {segments : List Segment} (h : resolveSegments r kind e.normalized resource extension scope
        container segments = .ok t) :
      (∃ c, ∀ other, resolveSegments r kind e.normalized other extension scope container segments =
        .ok (t.inside c other)) ∧
      (∀ a ∈ t.definition, t.name = a.name) ∧
      (t.definition = none → t.container = [] ∧ t.extension = some t.name) := by
    obtain ⟨⟨a, ha, hname⟩, hc⟩ := resolveSegments_aims h
    refine ⟨hc, fun b hb => ?_, fun hnone => ?_⟩
    · rwa [← Option.some.inj (ha.symm.trans hb)]
    · simp [ha] at hnone
  unfold Expression.resolve at h ⊢
  split at h
  · rename_i urn rest hsegments
    simp only [hsegments] at h ⊢
    by_cases hurn : isUrn urn = true
    · simp only [if_pos hurn] at h ⊢
      cases hs : r.extension? kind urn with
      | none => simp [hs] at h
      | some s =>
        simp only [hs] at h ⊢
        by_cases hrest : rest.isEmpty = true
        · simp only [if_pos hrest] at h ⊢
          cases h
          exact ⟨⟨none, fun _ => rfl⟩, by simp, fun _ => ⟨rfl, rfl⟩⟩
        · simp only [if_neg hrest] at h ⊢
          exact within h
    · simp only [if_neg hurn] at h ⊢
      exact within h
  · exact within h

theorem resolveText_aims {r : Registry} {kind : Kind} {path : String} {resource : Json}
    {t : Target} (h : resolveText r kind path resource = .ok t) :
    ∃ c, Aims r kind path t c := by
  unfold resolveText liftFault at h
  split at h
  · rename_i t' ht
    cases h
    obtain ⟨e, he, ht⟩ := bind_eq_ok.mp ht
    obtain ⟨⟨c, hc⟩, hname, houter⟩ := resolve_aims ht
    refine ⟨c, fun other => ?_, hname, houter⟩
    simp [resolveText, he, hc, bind, Except.bind, liftFault]
  · simp at h

/-! ### Where targets lie -/

/-- Where a target lies: under an attribute of the kind, or under an extension, which it may take as
a whole. -/
inductive Target.Lies (r : Registry) (kind : Kind) (t : Target) : Prop where
  | core {b : Attribute} (mem : b ∈ kind.attributes) (rest : List String)
      (address : t.address = b.name :: rest) (unextended : t.extension = none)
  | extended {e : Schema} (known : Registered r kind e) (rest : List String)
      (address : t.address = e.id :: rest) (extension : t.extension = some e.id)
      (whole : t.definition = none ↔ rest = [])

section

variable {r : Registry} {kind : Kind} {path : String} {t u : Target} {c d : Option Condition}
  {name urn : String}

theorem Aims.lies (h : Aims r kind path t c) : t.Lies r kind := by
  cases hd : t.definition with
  | none =>
    obtain ⟨hc, hext⟩ := h.whole hd
    obtain ⟨e, he, hn, -⟩ := PatchRule.target_extension (resolveText_resolved (h.resolved .null)) hd
    have hn : t.name = e.id := hn
    rw [hn] at hext
    exact .extended he [] (by simp [Target.address, hc, hn]) hext (by simp [hd])
  | some a =>
    have hname := h.named a hd
    cases resolveText_resolved (h.resolved .null) with
    | extension _ _ _ _ hnone => simp [Target.inside, Target.choosing, hd] at hnone
    | core inner b hext hl hw =>
      have hext : t.extension = none := hext
      have hb : b = a := Option.some.inj (hw.definition.symm.trans hd)
      subst hb
      have hl : LeadsTo kind.attributes t.container inner := hl
      generalize hk : t.container = keys at hl
      cases hl with
      | here =>
        exact .core (findAttribute?_mem hw.defined.found) []
          (by simp [Target.address, hk, hname]) hext
      | @into _ _ keys _ hdb =>
        exact .core (findAttribute?_mem hdb.found) (keys ++ [t.name])
          (by simp [Target.address, hk]) hext
    | extended s urn keys inner b hs hurn hext hk hl hw =>
      have hk : t.container = s.id :: keys := hk
      exact .extended ⟨urn, hs, hurn⟩ (keys ++ [t.name]) (by simp [Target.address, hk]) hext
        (by simp [hd])

/-- A name of a member at the top is apart from every address that starts with another. -/
theorem Target.Lies.apart_of_ne (h : t.Lies r kind) {name : String} (hn : Named r kind name)
    (hne : ∀ rest, t.address ≠ name :: rest) : apart [name] t.address = true := by
  have other {k : String} {rest : List String} (hk : Named r kind k)
      (ha : t.address = k :: rest) : apart [name] t.address = true := by
    rw [ha]
    refine apart_cons_of_not_same ?_ [] rest
    rw [Bool.eq_false_iff]
    intro hs
    exact hne rest (by rw [ha, hn.spelled hk hs])
  cases h with
  | core hb rest ha => exact other (.defined hb) ha
  | extended he rest ha => exact other (.registered he) ha

/-- So is a name that no attribute has, nor the extension in which the target may lie. -/
theorem Target.Lies.apart_of_not_same (h : t.Lies r kind)
    (hcore : ∀ b ∈ kind.attributes, sameName name b.name = false)
    (hextended : ∀ e, Registered r kind e → t.extension = some e.id →
      sameName name e.id = false) : apart [name] t.address = true := by
  cases h with
  | core hb rest ha =>
    rw [ha]
    exact apart_cons_of_not_same (hcore _ hb) [] rest
  | extended he rest ha hext =>
    rw [ha]
    exact apart_cons_of_not_same (hextended _ he hext) [] rest

theorem Target.Lies.apart_schemas (h : t.Lies r kind) : apart ["schemas"] t.address = true := by
  refine h.apart_of_not_same (fun b hb => ?_) fun e he _ => (registered_not_schemas he).2
  rw [sameName_comm]
  exact schemas_not_attribute kind b hb

theorem Target.Lies.apart_extension (h : t.Lies r kind) (hnone : t.extension = none) {e : Schema}
    (he : Registered r kind e) : apart [e.id] t.address = true :=
  h.apart_of_not_same (fun b hb => (Named.extension_ne he (attributes_not_urn kind b hb)).2)
    fun f _ hext => by simp [hnone] at hext

theorem Aims.within {a : Attribute} (h : Aims r kind path t c) (ha : t.definition = some a)
    (resource : Json) : ∃ definitions, (t.inside c resource).Within resource definitions a := by
  cases resolveText_resolved (h.resolved resource) with
  | extension _ _ _ _ hnone => simp [Target.inside, Target.choosing, ha] at hnone
  | core inner b _ _ hw | extended _ _ _ inner b _ _ _ _ _ hw =>
    obtain rfl : b = a := Option.some.inj (hw.definition.symm.trans ha)
    exact ⟨inner, hw⟩

theorem Aims.whole_address (h : Aims r kind path t c) (hwhole : t.definition = none) :
    t.address = [t.name] ∧ sameName "schemas" t.name = false := by
  have haddress : t.address = [t.name] := by simp [Target.address, (h.whole hwhole).1]
  have hschemas := h.lies.apart_schemas
  rw [haddress, apart_singleton, Bool.not_eq_true'] at hschemas
  exact ⟨haddress, hschemas⟩

/-- A target in an extension lies at it or in its object. -/
theorem Target.Lies.within (hu : u.Lies r kind) {e : Schema} (he : Registered r kind e)
    (hother : u.address ≠ [e.id]) :
    apart [e.id] u.address = true ∨ ∃ rest, u.container = e.id :: rest := by
  by_cases hfirst : ∃ rest, u.address = e.id :: rest
  · obtain ⟨rest, hrest⟩ := hfirst
    refine .inr ?_
    unfold Target.address at hrest hother
    cases hc : u.container with
    | nil =>
      rw [hc, List.nil_append] at hrest hother
      exact absurd (by rw [(List.cons.inj hrest).1]) hother
    | cons key keys =>
      rw [hc, List.cons_append] at hrest
      exact ⟨keys, by rw [(List.cons.inj hrest).1]⟩
  · exact .inl (hu.apart_of_ne (.registered he) fun rest h => hfirst ⟨rest, h⟩)

theorem Target.Lies.extension (ht : t.Lies r kind) (hext : t.extension = some urn) :
    ∃ e, Registered r kind e ∧ e.id = urn ∧ ∃ rest, t.address = urn :: rest ∧
      (t.definition = none ↔ rest = []) := by
  cases ht with
  | core _ _ _ hnone => simp [hnone] at hext
  | extended he rest ha hsome hwhole =>
    obtain rfl := Option.some.inj (hsome.symm.trans hext)
    exact ⟨_, he, rfl, rest, ha, hwhole⟩

/-- What an extension has of a target, if that is not the extension itself, lies in its object. -/
theorem Target.Lies.container_of_part (ht : t.Lies r kind) (hext : t.extension = some urn)
    (hpart : t.definition ≠ none) : ∃ keys, t.container = urn :: keys := by
  obtain ⟨e, he, rfl, rest, ha, hwhole⟩ := ht.extension hext
  have hother : t.address ≠ [e.id] := by
    rw [ha]
    exact fun h => hpart (hwhole.mpr (List.cons.inj h).2)
  refine (ht.within he hother).resolve_left ?_
  simp [ha, apart_singleton, sameName_refl]

/-- Targets in extensions of one kind lie in the same under the standard registry. -/
theorem extension_standard_unique {urn' : String} (ht : t.Lies .standard kind)
    (hu : u.Lies .standard kind) (hext : t.extension = some urn) (hext' : u.extension = some urn') :
    urn = urn' := by
  obtain ⟨e, he, rfl, -⟩ := ht.extension hext
  obtain ⟨f, hf, rfl, -⟩ := hu.extension hext'
  rw [registered_standard he, registered_standard hf]

/-- A target apart from an extension as a whole lies outside all extensions. -/
theorem Target.Lies.outside (ht : t.Lies .standard kind) (hu : Aims .standard kind path u d)
    (hwhole : u.definition = none) (hapart : apart t.address u.address = true) :
    t.extension = none := by
  cases hext : t.extension with
  | none => rfl
  | some urn =>
    obtain rfl := extension_standard_unique ht hu.lies hext (hu.whole hwhole).2
    obtain ⟨e, -, -, rest, ha, -⟩ := ht.extension hext
    rw [ha, (hu.whole_address hwhole).1, apart_cons_self] at hapart
    simp at hapart

/-! ### Places that are spared -/

/-- An edit at a target, with what it does to the target's extension, spares a place. -/
structure Target.Spares (t : Target) (keys : List String) (name : String) : Prop where
  apart : Roster.apart t.address (keys ++ [name]) = true
  schemas : t.extension ≠ none → Roster.apart ["schemas"] (keys ++ [name]) = true
  within : ∀ urn ∈ t.extension, Roster.apart [urn] (keys ++ [name]) = true ∨
    ∃ rest, keys = urn :: rest

/-- A target whose address is apart is spared. -/
theorem Target.Lies.spares (ht : t.Lies r kind) (hu : u.Lies r kind)
    (hapart : apart t.address u.address = true) : t.Spares u.container u.name where
  apart := hapart
  schemas _ := hu.apart_schemas
  within urn hext := by
    obtain ⟨e, he, rfl, rest, ha, -⟩ := ht.extension hext
    refine hu.within he fun hwhole => ?_
    rw [ha, hwhole, apart_cons_self] at hapart
    simp at hapart

/-- A target outside all extensions spares the names of other members at the top. -/
theorem Target.spares_top (hnone : t.extension = none)
    (hapart : apart [name] t.address = true) : t.Spares [] name where
  apart := by rwa [List.nil_append, apart_comm]
  schemas hsome := absurd hnone hsome
  within urn hext := by simp [hnone] at hext

end

end Roster
