import Roster.Proofs.Expression.Reading
import Roster.Proofs.Patch.Declared

/-! Members assigned to a resource under their own names. A member of a canonical resource can be
assigned to another one, which then holds it as it was. -/

namespace Roster

open Expression (isLeadChar)

/-! ### Names as paths -/

namespace Expression

variable {r : Registry}

/-- The name of an attribute is read as the path to it. -/
theorem parse_name {name : String} (h : isAttributeName name.toList = true)
    (hlen : utf8Length name.toList ≤ Filter.greatestLength) :
    parse r name = .ok ⟨[.name name]⟩ := by
  have hpath : IsPath r none [(name, none)] := by
    refine ⟨by simp, fun p hp => ?_, by simp⟩
    obtain rfl := List.mem_singleton.mp hp
    exact ⟨h, by simp⟩
  have hreads : ReadsBack r ⟨pathSegments none [(name, none)]⟩ :=
    ⟨fun text f hs => by simp [pathSegments, segment] at hs,
      fun urn next rest hs => by simp [pathSegments, segment] at hs⟩
  exact (parse_normalized_path hpath hlen (by simp [pathSegments, segment, Segment.filter?])).mpr
    hreads

/-- The URN of an extension is read as the path to the extension. -/
theorem parse_extension {urn : String} (h : IsExtension r urn)
    (hlen : utf8Length urn.toList ≤ Filter.greatestLength) :
    parse r urn = .ok ⟨[.name urn]⟩ := by
  have hpath : IsPath r (some urn) [] := by
    refine ⟨fun other ho => ?_, by simp, by simp⟩
    cases ho
    exact h
  have hreads : ReadsBack r ⟨pathSegments (some urn) []⟩ :=
    ⟨fun text f hs => by simp [pathSegments] at hs,
      fun urn next rest hs => by simp [pathSegments] at hs⟩
  exact (parse_normalized_path hpath hlen (by simp [pathSegments, Segment.filter?])).mpr hreads

end Expression

/-- The one extension of a kind, if there is one, can be read as a path. -/
structure Registry.Addressable (r : Registry) (kind : Kind) : Prop extends r.Single kind where
  lead : ∀ s, Registered r kind s → s.id.toList.all isLeadChar = true
  length : ∀ s, Registered r kind s → utf8Length s.id.toList ≤ Filter.greatestLength

theorem attributes_named (kind : Kind) : ∀ a ∈ kind.attributes,
    isAttributeName a.name.toList = true ∧
      utf8Length a.name.toList ≤ Filter.greatestLength := by
  cases kind <;> decide

variable {r : Registry} {kind : Kind} {root : Members Json} {a : Attribute} {v : Json}

/-- The target that the name of an attribute addresses. -/
def Attribute.target (a : Attribute) : Target :=
  ⟨a.name, [], a.name, some a, a.subAttributes, .whole, none, none, none⟩

/-- The target that the identifier of an extension addresses. -/
def Schema.target (s : Schema) : Target :=
  ⟨s.id, [], s.id, none, s.attributes, .whole, none, none, some s.id⟩

theorem resolveText_attribute (hd : Defined kind.attributes a) (resource : Json) :
    resolveText r kind a.name resource = .ok a.target := by
  have ha := findAttribute?_mem hd.found
  obtain ⟨hname, hlen⟩ := attributes_named kind a ha
  have hurn := attributes_not_urn kind a ha
  simp [resolveText, Expression.parse_name hname hlen, Expression.resolve, hurn, resolveSegments,
    Segment.isSchemaUrn, Segment.name?, Scope.find?, Scope.attributes, hd.found, hd.writable,
    Segment.filter?, Segment.filterOrError, Segment.parsedFilter, Attribute.select,
    Attribute.lastSub, liftFault, Expression.normalized, Expression.joinSegments, Segment.toText,
    Attribute.target, bind, Except.bind]

theorem resolveText_extension (hr : r.Addressable kind) {s : Schema} (hs : Registered r kind s)
    (resource : Json) : resolveText r kind s.id resource = .ok s.target := by
  have hext := registered_extension? hs (sameName_refl _)
  have hurn := registered_isUrn hs
  have hknown : r.isKnownExtension s.id = true := by
    obtain ⟨e, he, rfl, hname⟩ := Registry.extension?_some hext
    exact List.any_eq_true.mpr ⟨e, List.mem_of_mem_filter he, hname⟩
  have hparse := Expression.parse_extension ⟨hknown, hurn, hr.lead s hs⟩ (hr.length s hs)
  simp [resolveText, hparse, Expression.resolve, hurn, hext, liftFault, Expression.normalized,
    Expression.joinSegments, Segment.toText, Schema.target, bind, Except.bind]

/-! ### Single members -/

/-- No attribute at the top of a resource is immutable. -/
theorem attributes_mutable (kind : Kind) :
    ∀ a ∈ kind.attributes, (a.mutability == .immutable) = false := by
  cases kind <;> decide

/-- No list in a value has more than one element that is marked as primary. -/
def Json.OneMarked (v : Json) : Prop :=
  ∀ items ∈ v.items?, (items.filter Json.isPrimary).length ≤ 1

instance (v : Json) : Decidable v.OneMarked :=
  inferInstanceAs (Decidable (∀ items ∈ v.items?, (items.filter Json.isPrimary).length ≤ 1))

/-- A checked value replaces that of its attribute as it is. -/
theorem assignAt_attribute (hc : Canonical r kind root) (hd : Defined kind.attributes a)
    (hv : checkValue a v = .ok v) (hone : v.OneMarked) :
    assignAt r kind .replace a.name v (.obj root) = .ok (.obj (Members.insert root a.name v)) := by
  have himmutable := attributes_mutable kind a (findAttribute?_mem hd.found)
  have hnull : v.isNull = false := checkValue_not_null hv
  have hmarked : (a.multiValued && decide (1 < (v.flatten.filter Json.isPrimary).length)) =
      false := by
    cases hm : a.multiValued with
    | false => rfl
    | true =>
      obtain ⟨items, rfl, -⟩ := (checkValue_list_self_iff hm).mp hv
      rw [Bool.true_and, decide_eq_false_iff_not, not_lt]
      exact hone items rfl
  simp [assignAt, resolveText_attribute hd, hnull, Target.replace, Attribute.target,
    Target.requireMatch, liftFault, Json.editAt, Json.editObject, Members.editWithin,
    Target.replaceIn, hv, hmarked, checkImmutable, himmutable, hc.set hd.named, Target.declareIn,
    bind, Except.bind, Except.map]

/-- A checked object replaces that of its extension as it is, and the extension is declared. -/
theorem assignAt_extension (hr : r.Addressable kind) (hc : Canonical r kind root) {s : Schema}
    (hs : Registered r kind s) {o : Members Json} (ho : CheckedObject s.attributes o) :
    assignAt r kind .replace s.id (.obj o) (.obj root) =
      .ok ((Json.obj (Members.insert root s.id (.obj o))).declare s.id) := by
  have hchecked : checkMembers s.id s.attributes (.obj o) = .ok o :=
    checkMembers_eq_self_iff.mpr ho
  simp [assignAt, resolveText_extension hr hs, Json.isNull, Target.replace, Schema.target,
    hchecked, Json.editAt, Json.editObject, Members.editWithin, hc.set (.registered hs), bind,
    Except.bind, Except.map]

/-- The member may be assigned by a client. -/
def Kind.Assigns (kind : Kind) (m : String × Json) : Prop :=
  m.1 ≠ "schemas" ∧ kind.isReadOnly m.1 = false

/-- A member that fits can be assigned. It is then held, and of the others none but the list of
schemas may change, and this only for an extension. -/
theorem assignAt_fits (hr : r.Addressable kind) (hc : Canonical r kind root)
    (hd : Declares r kind root) {m : String × Json} (hm : Fits r kind m) (ha : kind.Assigns m)
    (hone : m.2.OneMarked) :
    ∃ root', assignAt r kind .replace m.1 m.2 (.obj root) = .ok (.obj root') ∧
      Members.get? root' m.1 = some m.2 ∧
      (∀ key, key ≠ m.1 → key ≠ "schemas" → Members.get? root' key = Members.get? root key) ∧
      ((∀ s, Registered r kind s → m.1 ≠ s.id) →
        Members.get? root' "schemas" = Members.get? root "schemas") := by
  cases hm with
  | schemas => exact absurd rfl ha.1
  | assigned v hk =>
    obtain ⟨-, -, -, hro⟩ := assigned_attribute kind _ hk
    rw [show kind.isReadOnly _ = false from ha.2] at hro
    cases hro
  | defined hw hv =>
    refine ⟨_, assignAt_attribute hc hw hv hone, Members.get?_insert_self _ _ _,
      fun key hne _ => Members.get?_insert_of_ne _ _ hne, fun _ => ?_⟩
    exact Members.get?_insert_of_ne _ _ (Ne.symm ha.1)
  | @registered s o hs ho =>
    -- the list of schemas is there to be extended
    obtain ⟨items, hitems⟩ : ∃ items, Members.get? root "schemas" = some (.arr items) := by
      cases hd with
      | core items _ => exact ⟨_, items⟩
      | extended _ _ items => exact ⟨_, items⟩
    have hne : s.id ≠ "schemas" := ha.1
    have hkept : Members.get? (Members.insert root s.id (.obj o)) "schemas" =
        some (.arr items) := (Members.get?_insert_of_ne _ _ hne.symm).trans hitems
    refine ⟨_, (assignAt_extension hr hc hs ho).trans
      (congrArg Except.ok (Json.declare_eq s.id hkept)), ?_, fun key hkey hschemas => ?_,
      fun hnot => absurd rfl (hnot s hs)⟩
    · rw [Members.get?_insert_of_ne _ _ hne, Members.get?_insert_self]
    · rw [Members.get?_insert_of_ne _ _ hschemas, Members.get?_insert_of_ne _ _ hkey]

/-! ### Members in turn -/

/-- Members that fit are assigned in turn. Each is then held, and what is held under other names is
as it was, the list of schemas too where no extension is assigned. -/
theorem assignMembers_fits (hw : r.WellNamed) (hr : r.Addressable kind) {ms : Members Json}
    (hfits : ∀ m ∈ ms, Fits r kind m ∧ kind.Assigns m ∧ m.2.OneMarked)
    (hn : (Members.keys ms).Nodup) (hc : Canonical r kind root) (hd : Declares r kind root) :
    ∃ root', assignMembers r kind .replace ms (.obj root) = .ok (.obj root') ∧
      Canonical r kind root' ∧ Declares r kind root' ∧
      (∀ key, key ≠ "schemas" →
        Members.get? root' key = (Members.get? ms key).or (Members.get? root key)) ∧
      ((∀ s, Registered r kind s → Members.get? ms s.id = none) →
        Members.get? root' "schemas" = Members.get? root "schemas") := by
  induction ms generalizing root with
  | nil => exact ⟨root, rfl, hc, hd, fun key _ => by simp [Members.get?], fun _ => rfl⟩
  | cons m rest ih =>
    obtain ⟨⟨hm, ha, hone⟩, hrest⟩ := List.forall_mem_cons.mp hfits
    obtain ⟨hfirst, hnodup⟩ := List.nodup_cons.mp hn
    obtain ⟨next, hnext, hheld, hothers, hlist⟩ := assignAt_fits hr hc hd hm ha hone
    have hstep : (PatchStep.assign .replace m.1 m.2).apply r kind (.obj root) =
        .ok (.obj next) := hnext
    have hcnext : Canonical r kind next :=
      (canonical_rule hw).step (fun hf => hf.elim) hc hstep
    have hdnext : Declares r kind next := hd.step hr.toSingle hc hstep
    obtain ⟨root', hrun, hc', hd', hget, hschemas⟩ := ih hrest hnodup hcnext hdnext
    have hpass : (sameName m.1 "schemas" || kind.isReadOnly m.1) = false := by
      rw [Bool.or_eq_false_iff]
      refine ⟨?_, ha.2⟩
      rw [Bool.eq_false_iff]
      exact fun hs => ha.1 (hm.named.spelled .schemas hs).symm
    refine ⟨root', ?_, hc', hd', fun key hkey => ?_, fun hnone => ?_⟩
    · simp [assignMembers, hpass, hnext, hrun, bind, Except.bind]
    · -- the first member is not assigned again behind it
      rw [hget key hkey]
      by_cases hk : key = m.1
      · subst hk
        have hgone : Members.get? rest m.1 = none := by
          rw [← Option.not_isSome_iff_eq_none, Members.isSome_get?]
          exact hfirst
        simp [hgone, hheld, Members.get?]
      · simp [Members.get?, Ne.symm hk, hothers key hk hkey]
    · have hfree (s : Schema) (hs : Registered r kind s) :
          m.1 ≠ s.id ∧ Members.get? rest s.id = none := by
        have h := hnone s hs
        simp only [Members.get?] at h
        split_ifs at h with heq
        exact ⟨heq, h⟩
      rw [hschemas fun s hs => (hfree s hs).2]
      exact hlist fun s hs => (hfree s hs).1

end Roster
