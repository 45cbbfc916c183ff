import Roster.Patch.Apply
import Roster.Proofs.Patch.Checked

/-! What a path addresses: an extension as a whole, or an attribute with the objects on the way to
it. A resolved target is one of three forms, and all later facts about paths come from these. -/

namespace Roster

/-- A definition that is found under its own name and that clients may write. -/
structure Defined (definitions : List Attribute) (a : Attribute) : Prop where
  found : findAttribute? definitions a.name = some a
  writable : a.isReadOnly = false

/-- The names lead from an object of some attributes to an object of others, each as the name of a
singular complex attribute that clients may write. -/
inductive LeadsTo : List Attribute → List String → List Attribute → Prop where
  | here (definitions : List Attribute) : LeadsTo definitions [] definitions
  | into {definitions : List Attribute} {a : Attribute} {keys : List String}
      {inner : List Attribute} (defined : Defined definitions a) (singular : a.multiValued = false)
      (complex : a.type = .complex) (rest : LeadsTo a.subAttributes keys inner) :
      LeadsTo definitions (a.name :: keys) inner

theorem leadsTo_snoc {definitions inner : List Attribute} {keys : List String} {a : Attribute}
    (h : LeadsTo definitions keys inner) (hd : Defined inner a) (hs : a.multiValued = false)
    (hc : a.type = .complex) : LeadsTo definitions (keys ++ [a.name]) a.subAttributes := by
  induction h with
  | here definitions => exact .into hd hs hc (.here _)
  | into defined singular complex _ ih => exact .into defined singular complex (ih hd)

/-- A target within the attribute `a`, which lies in an object of `definitions`. Elements are
selected, and sub-attributes named, of lists only. -/
structure Target.Within (t : Target) (resource : Json) (definitions : List Attribute)
    (a : Attribute) : Prop where
  definition : t.definition = some a
  defined : Defined definitions a
  sub : ∀ sub, t.sub = some sub → Defined a.subAttributes sub
  listed : a.multiValued = true ∨ (t.selection = .whole ∧ t.sub = none)
  selected : ∀ indices, t.selection = .elements indices → ∃ condition : Condition,
    indices = condition.indices 0 (((resource.follow? t.container a.name).bind Json.items?).getD [])

namespace Target.Within

variable {t : Target} {resource : Json} {definitions : List Attribute} {a : Attribute}

theorem listed_of_elements (ht : t.Within resource definitions a) {indices : List Nat}
    (h : t.selection = .elements indices) : a.multiValued = true :=
  ht.listed.resolve_right fun hn => by simp [h] at hn

theorem listed_of_sub (ht : t.Within resource definitions a) {sub : Attribute}
    (h : t.sub = some sub) : a.multiValued = true :=
  ht.listed.resolve_right fun hn => by simp [h] at hn

end Target.Within

/-- The forms of a target: an extension as a whole, an attribute of the kind, or an attribute of an
extension. -/
inductive Target.Resolved (r : Registry) (kind : Kind) (resource : Json) (t : Target) : Prop where
  | extension (s : Schema) (urn : String) (registered : r.extension? kind urn = some s)
      (isUrn : isUrn urn = true) (definition : t.definition = none) (name : t.name = s.id)
      (members : t.members = s.attributes)
  | core (inner : List Attribute) (a : Attribute) (unextended : t.extension = none)
      (leads : LeadsTo kind.attributes t.container inner) (within : t.Within resource inner a)
  | extended (s : Schema) (urn : String) (keys : List String) (inner : List Attribute)
      (a : Attribute) (registered : r.extension? kind urn = some s) (isUrn : isUrn urn = true)
      (extended : t.extension = some s.id) (container : t.container = s.id :: keys)
      (leads : LeadsTo s.attributes keys inner) (within : t.Within resource inner a)

theorem lastSub_defined {a : Attribute} {path : String} {segments : List Segment}
    {sub : Attribute} (h : a.lastSub path segments = .ok (some sub)) :
    Defined a.subAttributes sub := by
  cases segments with
  | nil => simp [Attribute.lastSub] at h
  | cons s rest =>
    cases s with
    | name name =>
      rw [Attribute.lastSub, guard_eq_ok] at h
      have h := h.2
      split at h
      · simp at h
      · rename_i found hfind
        rw [guard_eq_ok] at h
        obtain ⟨hro, h⟩ := h
        cases h
        exact ⟨findAttribute?_name hfind, by simpa using hro⟩
    | _ => simp [Attribute.lastSub] at h

theorem select_elements {r : Registry} {kind : Kind} {a : Attribute} {filter : Option Filter}
    {held : Option Json} {indices : List Nat}
    (h : a.select r kind filter held = .ok (.elements indices)) :
    ∃ condition : Condition,
      indices = condition.indices 0 ((held.bind Json.items?).getD []) := by
  cases filter with
  | none => simp [Attribute.select] at h
  | some f =>
    obtain ⟨condition, -, h⟩ := bind_eq_ok.mp h
    simp only [Except.ok.injEq, Selection.elements.injEq] at h
    exact ⟨condition, h.symm⟩

/-- Resolving segments follows singular complex attributes and stops at the addressed one. -/
theorem resolveSegments_within {r : Registry} {kind : Kind} {path : String} {resource : Json}
    {extension : Option String} {segments : List Segment} {scope : Scope}
    {t : Target} {definitions : List Attribute} (front container : List String)
    (h : resolveSegments r kind path resource extension scope (front ++ container) segments = .ok t)
    (hl : LeadsTo definitions container (scope.attributes kind)) :
    t.extension = extension ∧ ∃ keys inner a, t.container = front ++ keys ∧
      LeadsTo definitions keys inner ∧ t.Within resource inner a := by
  induction segments generalizing scope container with
  | nil => simp [resolveSegments] at h
  | cons s rest ih =>
    rw [resolveSegments, guard_eq_ok] at h
    have h := h.2
    split at h
    · simp at h
    · split at h
      · simp at h
      · rename_i a hfind
        rw [guard_eq_ok, guard_eq_ok] at h
        obtain ⟨hro, hfilter, h⟩ := h
        have hd : Defined (scope.attributes kind) a :=
          ⟨findAttribute?_name hfind, by simpa using hro⟩
        split_ifs at h with hdeeper hcomplex
        · -- one object deeper: the names so far lead to its attributes
          simp at hdeeper hcomplex
          have hdeep : LeadsTo definitions (container ++ [a.name])
              ((Scope.members a.subAttributes).attributes kind) :=
            leadsTo_snoc hl hd hdeeper.1 hcomplex
          rw [List.append_assoc] at h
          exact ih _ h hdeep
        · -- the addressed attribute, with its selection and its sub-attribute
          obtain ⟨filter, hf, h⟩ := bind_eq_ok.mp h
          obtain ⟨selection, hsel, h⟩ := bind_eq_ok.mp h
          obtain ⟨sub, hsub, h⟩ := bind_eq_ok.mp h
          cases h
          refine ⟨rfl, container, _, a, rfl, hl, rfl, hd, ?_, ?_, ?_⟩
          · rintro b rfl
            exact lastSub_defined hsub
          · cases hm : a.multiValued with
            | true => exact .inl rfl
            | false =>
              have hnone : s.filter? = none := by simpa [hm] using hfilter
              have hend : rest = [] := by simpa [hm] using hdeeper
              simp only [Segment.filterOrError, Segment.parsedFilter, hnone, Except.ok.injEq] at hf
              subst hf hend
              simp only [Attribute.select, Except.ok.injEq] at hsel
              simp only [Attribute.lastSub, Except.ok.injEq] at hsub
              exact .inr ⟨hsel.symm, hsub.symm⟩
          · rintro indices rfl
            exact select_elements hsel

theorem resolve_resolved {r : Registry} {kind : Kind} {e : Expression} {resource : Json}
    {t : Target} (h : e.resolve r kind resource = .ok t) : t.Resolved r kind resource := by
  -- without a URN in front the target lies in the core attributes
  have core {segments : List Segment}
      (h : resolveSegments r kind e.normalized resource none .resource [] segments = .ok t) :
      t.Resolved r kind resource := by
    obtain ⟨hext, keys, inner, a, rfl, hl, hw⟩ :=
      resolveSegments_within [] [] h (.here kind.attributes)
    exact .core inner a hext hl hw
  unfold Expression.resolve at h
  split at h
  · rename_i urn rest _
    split at h
    · rename_i hurn
      split at h
      · simp at h
      · rename_i s hs
        split at h
        · cases h
          exact .extension s urn hs hurn rfl rfl rfl
        · obtain ⟨hext, keys, inner, a, hk, hl, hw⟩ := resolveSegments_within
            [s.id] [] h (.here s.attributes)
          exact .extended s urn keys inner a hs hurn hext hk hl hw
    · exact core h
  · exact core h

theorem resolveText_resolved {r : Registry} {kind : Kind} {path : String} {resource : Json}
    {t : Target} (h : resolveText r kind path resource = .ok t) : t.Resolved r kind resource := by
  unfold resolveText liftFault at h
  split at h
  · rename_i t' ht
    cases h
    obtain ⟨e, -, he⟩ := bind_eq_ok.mp ht
    exact resolve_resolved he
  · simp at h

end Roster
