import Roster.Proofs.Members.Kept
import Roster.Proofs.Projection.Withheld

/-! What is always returned. No list of attributes hides such an attribute of a resource. One of an
extension is shown exactly where the extension is: an extension that is left out as a whole, or of
which nothing is listed, is hidden with all that it holds. -/

namespace Roster

namespace Projection

variable {r : Registry} {kind : Kind} {p : Projection} {root o : Members Json} {key name : String}
  {v : Json} {a : Attribute} {s : Schema} {attributes : List Attribute}

/-- Whether a projection lets anything of an extension through: it does not leave it out as a whole,
and lists it, or something of it, if it lists anything. -/
def admits (p : Projection) (urn : String) : Bool :=
  !p.excluded.any (fun entry => entry.isWithin (some urn) && entry.isWhole) &&
    p.included.all fun included => included.any (·.isWithin (some urn))

theorem always_member? (p : Projection) (extension : Option String)
    (h : findAttribute? attributes key = some a) (ha : a.returned = .always) (v : Json) :
    p.member? extension attributes key v = some (withoutNever a v) := by
  simp [member?, h, ha]

theorem extension?_eq_none (h : p.admits key = false) (v : Json) :
    p.extension? key attributes v = none := by
  unfold admits at h
  unfold extension?
  rw [Bool.and_eq_false_iff, Bool.not_eq_false'] at h
  rcases h with hexcluded | hincluded
  · simp [hexcluded]
  · cases hi : p.included with
    | none => simp [hi] at hincluded
    | some included => simp_all

/-- An extension that is let through is shown with every member that is always returned. -/
theorem extension?_always (h : p.admits key = true) (hv : Members.get? o name = some v)
    (ha : findAttribute? attributes name = some a) (hr : a.returned = .always) :
    ∃ shown, p.extension? key attributes (.obj o) = some (.obj shown) ∧
      Members.get? shown name = some (withoutNever a v) := by
  rw [admits, Bool.and_eq_true, Bool.not_eq_true'] at h
  obtain ⟨hexcluded, hincluded⟩ := h
  have hlisted : (p.included.any fun included =>
      !included.any (·.isWithin (some key))) = false := by
    cases hi : p.included with
    | none => rfl
    | some included =>
      rw [hi] at hincluded
      simpa using hincluded
  -- the member is shown whether or not the extension is listed as a whole
  have hmember (q : Projection) : Members.get? (o.filterMap fun m =>
      (q.member? (some key) attributes m.1 m.2).map (m.1, ·)) name = some (withoutNever a v) := by
    refine Members.get?_filterMap_of_get? (fun m n hm => ?_) hv ?_
    · obtain ⟨w, -, rfl⟩ := Option.map_eq_some_iff.mp hm
      rfl
    · rw [q.always_member? (some key) ha hr]
      rfl
  have hnonempty (q : Projection) : (o.filterMap fun m =>
      (q.member? (some key) attributes m.1 m.2).map (m.1, ·)).isEmpty = false := by
    rw [List.isEmpty_eq_false_iff]
    intro hnil
    have hfound := hmember q
    rw [hnil] at hfound
    cases hfound
  simp only [extension?, hexcluded, hlisted, hnonempty, Bool.false_eq_true, if_false]
  exact ⟨_, rfl, hmember _⟩

theorem get?_apply {w : Json} (hv : (Json.obj root).get? key = some v)
    (h : p.shown? r kind (key, v) = some (key, w)) :
    (p.apply r kind (.obj root)).get? key = some w := by
  rw [apply_obj]
  exact Members.get?_filterMap_of_get? (fun _ _ => shown?_key) hv h

/-- Whatever a projection lists, it shows each attribute of a resource that is always returned. A
member of an extension that is always returned is shown if and only if the extension is let
through. -/
theorem apply_always (r : Registry) (kind : Kind) (p : Projection) (resource : Json) :
    (∀ key v a, resource.get? key = some v → r.extension? kind key = none →
      kind.attribute? key = some a → a.returned = .always →
        ((p.apply r kind resource).get? key).isSome = true) ∧
    ∀ key o s, resource.get? key = some (.obj o) → r.extension? kind key = some s →
      key ≠ "schemas" → ∀ name v a, Members.get? o name = some v → s.attribute? name = some a →
        a.returned = .always →
          ((((p.apply r kind resource).get? key).bind (·.get? name)).isSome = true ↔
            p.admits key = true) := by
  cases resource with
  | obj root =>
    refine ⟨fun key v a hv hs ha hr => ?_, fun key o s ho hs hne name v a hv ha hr => ?_⟩
    · by_cases hschemas : key = "schemas"
      · rw [get?_apply hv (p.shown?_schemas r kind hschemas)]
        rfl
      · have hshown := p.shown?_attribute (m := (key, v)) hschemas hs
        rw [p.always_member? none ha hr] at hshown
        rw [get?_apply hv hshown]
        rfl
    · constructor
      · intro hshown
        by_contra hadmits
        have hnone : (p.apply r kind (.obj root)).get? key = none := by
          rw [apply_obj]
          refine Members.get?_filterMap_eq_none (fun _ _ => shown?_key) fun w _ => ?_
          rw [p.shown?_extension (m := (key, w)) hne hs,
            extension?_eq_none (Bool.eq_false_of_not_eq_true hadmits)]
          rfl
        rw [hnone] at hshown
        cases hshown
      · intro hadmits
        obtain ⟨shown, hshown, hget⟩ := extension?_always hadmits hv ha hr
        have hobj := p.shown?_extension (m := (key, .obj o)) hne hs
        rw [hshown] at hobj
        rw [get?_apply ho hobj]
        change (Members.get? shown name).isSome = true
        rw [hget]
        rfl
  | _ =>
    -- only an object has members
    refine ⟨fun key v a hv => ?_, fun key o s ho => ?_⟩
    · cases hv
    · cases ho

/-- The number of a desk, always returned. -/
def desk : Attribute := (Attribute.text "desk" "The number of a desk").withReturned .always

def seat : Schema :=
  Schema.make "urn:example:seat" "Seat" "Where a user sits"
    [desk, Attribute.text "floor" "The floor"]

def seatRegistry : Registry := Registry.core.extend ⟨.user, seat, false⟩

def seated : Json :=
  .obj [("id", .str "u1"), ("urn:example:seat",
    .obj [("desk", .str "17"), ("floor", .str "2")]), ("userName", .str "bj")]

/-- The desk is shown where only the floor is asked for. -/
theorem apply_always_seat : ∃ p,
    parse seatRegistry .user (some "urn:example:seat:floor") none = .ok p ∧
      ((p.apply seatRegistry .user seated).get? "id").isSome = true ∧
      (((p.apply seatRegistry .user seated).get? "urn:example:seat").bind
        (·.get? "desk")).isSome = true := by
  let floor : Projection := ⟨some [.attribute (some "urn:example:seat") "floor" none], []⟩
  have hparse : parse seatRegistry .user (some "urn:example:seat:floor") none = .ok floor := by
    decide
  have hadmits : floor.admits "urn:example:seat" = true := by decide
  obtain ⟨hcore, hextended⟩ := apply_always seatRegistry .user floor seated
  have hid := hcore "id" (.str "u1")
    (((Attribute.text "id" "Unique resource identifier").asReadOnly.asCaseExact.withReturned
      .always).withUniqueness .server) rfl rfl rfl rfl
  have hdesk := hextended "urn:example:seat" _ seat rfl rfl (by decide) "desk" (.str "17") desk rfl
    rfl rfl
  exact ⟨floor, hparse, hid, hdesk.mpr hadmits⟩

/-- No desk is shown where only names are asked for. -/
theorem apply_always_hidden : ∃ p,
    parse seatRegistry .user (some "userName") none = .ok p ∧
      seatRegistry.extension? .user "urn:example:seat" = some seat ∧
      seat.attribute? "desk" = some desk ∧ desk.returned = .always ∧
      ((seated.get? "urn:example:seat").bind (·.get? "desk")).isSome = true ∧
      ((p.apply seatRegistry .user seated).get? "urn:example:seat").isSome = false := by
  refine ⟨⟨some [.attribute none "userName" none], []⟩, ?_, rfl, rfl, rfl, rfl, ?_⟩
  · decide
  · decide

end Projection

end Roster
