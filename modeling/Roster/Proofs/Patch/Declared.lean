import Roster.Proofs.Json
import Roster.Proofs.Patch.Canonical
import Roster.Proofs.Patch.Outcome

/-! The list of schemas of a resource. Where a kind has one extension at most, the list is the core
schema alone or the core schema and the extension, and an extension that holds something is in it.
Modifications leave it so. -/

namespace Roster

/-! ### The list after a declaration -/

namespace Json

variable {root : Members Json} {items : List Json}

theorem putHeld_of_get? {name : String} {v w : Json} (h : Members.get? root name = some v) :
    Members.putHeld root name w = Members.insert root name w := by
  simp [Members.putHeld, Members.key?, h]

theorem declare_eq (urn : String)
    (h : Members.get? root "schemas" = some (.arr items)) :
    (Json.obj root).declare urn = .obj (Members.insert root "schemas"
      (.arr (if items.any (isUrnOf urn) then items else items ++ [.str urn]))) := by
  rw [declare_items urn (Members.find?_of_get? h), putHeld_of_get? h, withUrn]

theorem undeclare_eq (urn : String)
    (h : Members.get? root "schemas" = some (.arr items)) :
    (Json.obj root).undeclare urn = .obj (Members.insert root "schemas"
      (.arr (items.filter fun v => !v.isUrnOf urn))) := by
  rw [undeclare_items urn (Members.find?_of_get? h), putHeld_of_get? h]

end Json

variable {r : Registry} {kind : Kind}

/-! ### Declared extensions -/

theorem registered_ne_schemas {s : Schema} (hs : Registered r kind s) : s.id ≠ "schemas" :=
  Members.ne_of_not_same (registered_not_schemas hs).1

/-- A kind has one extension at most, and its identifier is not that of the core schema. -/
structure Registry.Single (r : Registry) (kind : Kind) : Prop where
  unique : ∀ s t, Registered r kind s → Registered r kind t → t = s
  other : ∀ s, Registered r kind s → sameName s.id kind.coreSchema.id = false

/-- The list of schemas is the core schema alone, and there is no extension, or it is the core
schema and the extension. -/
inductive Declares (r : Registry) (kind : Kind) (root : Members Json) : Prop where
  | core (items : Members.get? root "schemas" = some (.arr [.str kind.coreSchema.id]))
      (free : ∀ s, Registered r kind s → Members.get? root s.id = none)
  | extended (s : Schema) (known : Registered r kind s)
      (items : Members.get? root "schemas" = some (.arr [.str kind.coreSchema.id, .str s.id]))

namespace Declares

variable {root root' : Members Json}

/-- Nothing but the list of schemas and the extensions matters. -/
theorem congr (h : Declares r kind root)
    (hschemas : Members.get? root' "schemas" = Members.get? root "schemas")
    (hext : ∀ s, Registered r kind s → Members.get? root' s.id = Members.get? root s.id) :
    Declares r kind root' := by
  cases h with
  | core items free =>
    exact .core (hschemas.trans items) fun s hs => (hext s hs).trans (free s hs)
  | extended s hs items => exact .extended s hs (hschemas.trans items)

/-- After its declaration an extension is in the list, whatever it holds. -/
theorem declare (h1 : r.Single kind) (h : Declares r kind root)
    (hschemas : Members.get? root' "schemas" = Members.get? root "schemas") {s : Schema}
    (hs : Registered r kind s) : Declares r kind ((Json.obj root').declare s.id).root := by
  refine .extended s hs ?_
  cases h with
  | core items free =>
    rw [Json.declare_eq _ (hschemas.trans items)]
    have hnot : Json.isUrnOf s.id (.str kind.coreSchema.id) = false := h1.other s hs
    simp [Json.root, Json.members?, Members.get?_insert_self, hnot]
  | extended t ht items =>
    obtain rfl := h1.unique s t hs ht
    rw [Json.declare_eq _ (hschemas.trans items)]
    simp [Json.root, Json.members?, Members.get?_insert_self, Json.isUrnOf, Json.string?]

/-- An extension that is dropped leaves the core schema alone. -/
theorem undeclare (h1 : r.Single kind) (h : Declares r kind root)
    (hschemas : Members.get? root' "schemas" = Members.get? root "schemas") {s : Schema}
    (hs : Registered r kind s) :
    Declares r kind (((Json.obj root').dropMember s.id).undeclare s.id).root := by
  have hkept : Members.get? (Members.remove root' s.id) "schemas" = Members.get? root "schemas" :=
    (Members.get?_remove_of_not_same (registered_not_schemas hs).2).trans hschemas
  have hnot : Json.isUrnOf s.id (.str kind.coreSchema.id) = false := h1.other s hs
  have hself : Json.isUrnOf s.id (.str s.id) = true := sameName_refl s.id
  -- what is left of the list, and that the extension is gone
  have left {items : List Json} (hi : Members.get? (Members.remove root' s.id) "schemas" =
      some (.arr items)) (hfilter : (items.filter fun v => !v.isUrnOf s.id) =
        [.str kind.coreSchema.id]) :
      Declares r kind (((Json.obj root').dropMember s.id).undeclare s.id).root := by
    rw [Json.dropMember, Json.undeclare_eq _ hi, hfilter]
    refine .core (Members.get?_insert_self _ _ _) fun t ht => ?_
    obtain rfl := h1.unique s t hs ht
    exact (Members.get?_insert_of_ne _ _ (registered_ne_schemas ht)).trans
      (Members.get?_remove_self root' t.id)
  cases h with
  | core items free => exact left (hkept.trans items) (by simp [hnot])
  | extended t ht items =>
    obtain rfl := h1.unique s t hs ht
    exact left (hkept.trans items) (by simp [hnot, hself])

end Declares

/-! ### Steps -/

namespace Declares

variable {root : Members Json} {v : Json}

theorem step (h1 : r.Single kind) (hc : Canonical r kind root) (h : Declares r kind root)
    {s : PatchStep} (ha : s.apply r kind (.obj root) = .ok v) : Declares r kind v.root := by
  have hput {e : Schema} (he : Registered r kind e) (w : Json) :
      Members.get? (Members.putHeld root e.id w) "schemas" = Members.get? root "schemas" :=
    Members.get?_of_besides (Members.besides_putHeld _ _ _) (registered_not_schemas he).1
  cases PatchStep.outcome ha with
  | unchanged => exact h
  | edited hd hothers =>
    have hmem := findAttribute?_mem hd.found
    exact h.congr (Members.get?_of_besides hothers (schemas_not_attribute kind _ hmem)) fun s hs =>
      Members.get?_of_besides hothers (Named.extension_ne hs (attributes_not_urn kind _ hmem)).1
  | written he hothers =>
    exact h.declare h1 (Members.get?_of_besides hothers (registered_not_schemas he).1) he
  | @reduced e _ he hheld =>
    -- something is held by the extension, so that it is declared
    cases h with
    | core _ free =>
      rw [hc.find? (.registered he), free e he] at hheld
      cases hheld
    | extended t ht items =>
      obtain rfl := h1.unique e t he ht
      exact .extended t he ((hput he _).trans items)
  | emptied he => exact h.undeclare h1 (hput he _) he
  | dropped he => exact h.undeclare h1 rfl he

/-- A run of steps leaves a canonical resource whose extensions are declared. -/
theorem run (hw : r.WellNamed) (h1 : r.Single kind) (hc : Canonical r kind root)
    (h : Declares r kind root) {steps : List PatchStep}
    (hrun : PatchStep.run r kind steps (.obj root) = .ok v) :
    ∃ root', v = .obj root' ∧ Canonical r kind root' ∧ Declares r kind root' := by
  have hstep (s : PatchStep) (resource resource' : Json)
      (hp : ∃ root, resource = .obj root ∧ Canonical r kind root ∧ Declares r kind root)
      (hs : s.apply r kind resource = .ok resource') :
      ∃ root, resource' = .obj root ∧ Canonical r kind root ∧ Declares r kind root := by
    obtain ⟨root, rfl, hc, h⟩ := hp
    obtain ⟨root', rfl⟩ := Json.isObject_iff.mp (PatchStep.apply_isObject rfl hs)
    exact ⟨root', rfl, (canonical_rule hw).step (fun hf => hf.elim) hc hs, h.step h1 hc hs⟩
  exact PatchStep.run_keeps hstep ⟨root, rfl, hc, h⟩ hrun

end Declares

end Roster
