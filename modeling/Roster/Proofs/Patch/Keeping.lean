import Roster.Proofs.Patch.Steps

/-! The rule for whole resources: what a property of their members has to survive so that every
step of a modification keeps it. -/

namespace Roster

/-- An extension that paths can address. -/
def Registered (r : Registry) (kind : Kind) (s : Schema) : Prop :=
  ∃ urn, r.extension? kind urn = some s ∧ isUrn urn = true

/-- What a URN names is an extension of the kind, and the URN is a spelling of its identifier. -/
theorem Registry.extension?_some {r : Registry} {kind : Kind} {urn : String} {s : Schema}
    (h : r.extension? kind urn = some s) :
    ∃ e ∈ r.extensionsFor kind, e.schema = s ∧ sameName s.id urn = true := by
  obtain ⟨e, he, rfl⟩ := Option.map_eq_some_iff.mp h
  have hp := List.find?_some he
  simp only [Bool.and_eq_true] at hp
  exact ⟨e, List.mem_filter.mpr ⟨List.mem_of_find?_eq_some he, hp.1⟩, rfl, hp.2⟩

/-- The attributes of an object below the top of a resource that a path may lead to. -/
inductive InnerOf (r : Registry) (kind : Kind) : List Attribute → Prop where
  | nested {a : Attribute} : Defined kind.attributes a → a.multiValued = false →
      a.type = .complex → InnerOf r kind a.subAttributes
  | extension {s : Schema} : Registered r kind s → InnerOf r kind s.attributes
  | deeper {definitions : List Attribute} {a : Attribute} : InnerOf r kind definitions →
      Defined definitions a → a.multiValued = false → a.type = .complex →
      InnerOf r kind a.subAttributes

/-- A property `P` of the members of a resource, with the property `I` of the objects below the top.
The values of attributes have the property `V` at the top and `U` below it. -/
structure PatchRule (r : Registry) (kind : Kind) (single : Prop) (V U : Attribute → Json → Prop)
    (I : List Attribute → Members Json → Prop) (P : Members Json → Prop) : Prop where
  root : HolderRule kind.attributes single V P
  inner {definitions : List Attribute} :
    InnerOf r kind definitions → HolderRule definitions single U (I definitions)
  empty {definitions : List Attribute} : InnerOf r kind definitions → I definitions []
  object {a : Attribute} {ms : Members Json} : Defined kind.attributes a → a.multiValued = false →
    a.type = .complex → InnerOf r kind a.subAttributes → (V a (.obj ms) ↔ I a.subAttributes ms)
  innerObject {a : Attribute} {ms : Members Json} : a.multiValued = false → a.type = .complex →
    InnerOf r kind a.subAttributes → (U a (.obj ms) ↔ I a.subAttributes ms)
  checked {definitions : List Attribute} {incoming : Members Json} : InnerOf r kind definitions →
    CheckedObject definitions incoming → I definitions incoming
  merged {definitions : List Attribute} {held incoming : Members Json} :
    InnerOf r kind definitions → I definitions held → CheckedObject definitions incoming →
    I definitions (Members.setAll held incoming)
  extension {ms held : Members Json} {s : Schema} : P ms → Registered r kind s →
    Members.find? ms s.id = some (.obj held) → I s.attributes held
  setExtension {ms inner : Members Json} {s : Schema} : P ms → Registered r kind s →
    I s.attributes inner → P (Members.set ms s.id (.obj inner))
  putExtension {ms inner : Members Json} {s : Schema} : P ms → Registered r kind s →
    I s.attributes inner → P (Members.putHeld ms s.id (.obj inner))
  removeExtension {ms : Members Json} {s : Schema} : P ms → Registered r kind s →
    P (Members.remove ms s.id)
  schemas {ms : Members Json} {items : List Json} : P ms →
    P (Members.putHeld ms "schemas" (.arr items))

namespace PatchRule

variable {r : Registry} {kind : Kind} {single : Prop} {V U : Attribute → Json → Prop}
  {I : List Attribute → Members Json → Prop} {P : Members Json → Prop}

/-! ### Declared schemas -/

theorem declare (W : PatchRule r kind single V U I P) (urn : String) {resource : Json}
    (hp : P resource.root) : P (resource.declare urn).root := by
  unfold Json.declare
  split
  · rename_i v hv
    obtain ⟨root', hedit, rfl⟩ := Json.editObject_eq_ok hv
    obtain ⟨items, -, rfl⟩ := Members.editList_eq_ok hedit
    exact W.schemas hp
  · exact hp

theorem undeclare (W : PatchRule r kind single V U I P) (urn : String) {resource : Json}
    (hp : P resource.root) : P (resource.undeclare urn).root := by
  unfold Json.undeclare
  split
  · split
    · rename_i root root' hedit
      rcases Members.editHeldList_eq_ok hedit with rfl | ⟨items, -, rfl⟩
      · exact hp
      · exact W.schemas hp
    · exact hp
  · exact hp

theorem dropMember (W : PatchRule r kind single V U I P) {s : Schema} (hs : Registered r kind s)
    {resource : Json} (hp : P resource.root) : P (resource.dropMember s.id).root := by
  cases resource with
  | obj root => exact W.removeExtension hp hs
  | _ => exact hp

theorem dropEmptyExtension (W : PatchRule r kind single V U I P) {s : Schema}
    (hs : Registered r kind s) {resource : Json} (hp : P resource.root) :
    P (resource.dropEmptyExtension s.id).root := by
  unfold Json.dropEmptyExtension
  split
  · exact W.undeclare _ (W.dropMember hs hp)
  · exact hp

/-! ### Objects on the way to a target -/

/-- An edit that keeps every property of its object with a rule keeps the property of the object
from which names lead to it. -/
theorem editWithin (W : PatchRule r kind single V U I P) {definitions inner : List Attribute}
    {keys : List String} (hl : LeadsTo definitions keys inner) {V' : Attribute → Json → Prop}
    {Q : Members Json → Prop} (HQ : HolderRule definitions single V' Q)
    (hobject : ∀ {a : Attribute} {ms : Members Json}, Defined definitions a →
      a.multiValued = false → a.type = .complex → InnerOf r kind a.subAttributes →
      (V' a (.obj ms) ↔ I a.subAttributes ms))
    (hinner : ∀ a, Defined definitions a → a.multiValued = false → a.type = .complex →
      InnerOf r kind a.subAttributes)
    {f : Edit (Members Json)}
    (hf : ∀ {V'' : Attribute → Json → Prop} {Q' : Members Json → Prop},
      HolderRule inner single V'' Q' → ∀ ms ms', Q' ms → f ms = .ok ms' → Q' ms')
    {ms ms' : Members Json} (hq : Q ms) (h : Members.editWithin keys f ms = .ok ms') : Q ms' := by
  -- each object on the way has a rule of its own, with a property of its own
  induction hl generalizing V' Q ms ms' with
  | here definitions => exact hf HQ _ _ hq h
  | @into _ b _ _ hd hs hc _ ih =>
    have hin := hinner _ hd hs hc
    obtain ⟨held, next, hheld, hnext, rfl⟩ := Members.editObject_eq_ok h
    -- the object is held for its attribute, or made empty
    have hi : I b.subAttributes held := by
      rcases hheld with hfind | rfl
      · exact (hobject hd hs hc hin).mp (HQ.found hq hd hfind)
      · exact W.empty hin
    refine HQ.putHeld hq hd ((hobject hd hs hc hin).mpr ?_)
    exact ih (W.inner hin) (fun _ => W.innerObject) (fun a => .deeper hin) hf hi hnext

/-- An edit at a target that keeps every property with a rule of the object it is made in keeps the
property of the resource. -/
theorem editAt (W : PatchRule r kind single V U I P) {resource resource' : Json} {t : Target}
    {a : Attribute} (ht : t.Resolved r kind resource) (ha : t.definition = some a)
    {f : Edit (Members Json)}
    (hf : ∀ {inner : List Attribute}, t.Within resource inner a →
      ∀ {V' : Attribute → Json → Prop} {Q : Members Json → Prop}, HolderRule inner single V' Q →
      ∀ ms ms', Q ms → f ms = .ok ms' → Q ms')
    (hp : P resource.root) (h : resource.editAt t.container f = .ok resource') :
    P resource'.root := by
  obtain ⟨root', hedit, rfl⟩ := Json.editObject_eq_ok h
  cases ht with
  | extension s urn _ _ hnone => simp [hnone] at ha
  | core inner b _ hl hw =>
    obtain rfl : b = a := Option.some.inj (hw.definition.symm.trans ha)
    exact W.editWithin hl W.root W.object (fun a => .nested) (hf hw) hp hedit
  | extended s urn keys inner b hs hurn _ hk hl hw =>
    obtain rfl : b = a := Option.some.inj (hw.definition.symm.trans ha)
    have hreg : Registered r kind s := ⟨urn, hs, hurn⟩
    have hin : InnerOf r kind s.attributes := .extension hreg
    rw [hk] at hedit
    obtain ⟨held, next, hfind, hnext, rfl⟩ := Members.editObject_eq_ok hedit
    have hi : I s.attributes held := by
      rcases hfind with hfind | rfl
      · exact W.extension hp hreg hfind
      · exact W.empty hin
    refine W.putExtension hp hreg ?_
    -- the names behind that of the extension lead on from its members
    exact W.editWithin hl (W.inner hin) (fun _ => W.innerObject) (fun a => .deeper hin) (hf hw) hi
      hnext

/-! ### Steps -/

theorem extension_registered {resource : Json} {t : Target} {urn : String}
    (ht : t.Resolved r kind resource) (hu : t.extension = some urn) (hd : t.definition ≠ none) :
    ∃ s, Registered r kind s ∧ s.id = urn := by
  cases ht with
  | extension _ _ _ _ hnone => exact absurd hnone hd
  | core _ _ hnone => simp [hnone] at hu
  | extended s name keys inner a hs hurn hext =>
    exact ⟨s, ⟨name, hs, hurn⟩, Option.some.inj (hext.symm.trans hu)⟩

theorem target_extension {resource : Json} {t : Target} (ht : t.Resolved r kind resource)
    (hd : t.definition = none) :
    ∃ s, Registered r kind s ∧ t.name = s.id ∧ t.members = s.attributes := by
  cases ht with
  | extension s urn hs hurn _ hn hm => exact ⟨s, ⟨urn, hs, hurn⟩, hn, hm⟩
  | core _ _ _ _ hw => simp [hw.definition] at hd
  | extended _ _ _ _ _ _ _ _ _ _ hw => simp [hw.definition] at hd

theorem declareIn (W : PatchRule r kind single V U I P) (t : Target) {resource : Json}
    (hp : P resource.root) : P (t.declareIn resource).root := by
  unfold Target.declareIn
  split
  · exact W.declare _ hp
  · exact hp

theorem add (W : PatchRule r kind single V U I P) {resource resource' value : Json} {t : Target}
    (ht : t.Resolved r kind resource)
    (hone : single → ∀ a, t.definition = some a → ¬t.MarksSeveral a .add value)
    (hp : P resource.root) (h : t.add value resource = .ok resource') : P resource'.root := by
  cases Target.add_eq_ok h with
  | whole hd hi hheld =>
    obtain ⟨s, hs, hn, hm⟩ := target_extension ht hd
    have hin : InnerOf r kind s.attributes := .extension hs
    rw [hn, hm] at hi
    rw [hn] at hheld ⊢
    refine W.declare _ (W.putExtension hp hs (W.merged hin ?_ (checkMembers_checked hi)))
    rcases hheld with hfind | rfl
    · exact W.extension hp hs hfind
    · exact W.empty hin
  | @part a _ hd hedit =>
    refine W.declareIn t (W.editAt ht hd (fun hw _ _ HQ ms ms' hq h => ?_) hp hedit)
    exact HQ.addIn hw (fun hs => hone hs a hd) hq h

theorem replace (W : PatchRule r kind single V U I P) {resource resource' value : Json} {t : Target}
    (ht : t.Resolved r kind resource)
    (hone : single → ∀ a, t.definition = some a → ¬t.MarksSeveral a .replace value)
    (hp : P resource.root) (h : t.replace value resource = .ok resource') : P resource'.root := by
  cases Target.replace_eq_ok h with
  | whole hd hi =>
    obtain ⟨s, hs, hn, hm⟩ := target_extension ht hd
    rw [hn, hm] at hi
    rw [hn]
    exact W.declare _ (W.setExtension hp hs (W.checked (.extension hs) (checkMembers_checked hi)))
  | @part a _ hd _ hedit =>
    refine W.declareIn t (W.editAt ht hd (fun hw _ _ HQ ms ms' hq h => ?_) hp hedit)
    exact HQ.replaceIn hw (fun hs => hone hs a hd) hq h

theorem remove (W : PatchRule r kind single V U I P) {resource resource' : Json} {t : Target}
    (ht : t.Resolved r kind resource) {value : Option Json} (hp : P resource.root)
    (h : t.remove r kind value resource = .ok resource') : P resource'.root := by
  cases Target.remove_eq_ok h with
  | whole hd _ =>
    obtain ⟨s, hs, hn, -⟩ := target_extension ht hd
    rw [hn]
    exact W.undeclare _ (W.dropMember hs hp)
  | absent => exact hp
  | @part a v hd _ _ hedit =>
    have hv : P v.root := by
      refine W.editAt ht hd (fun hw _ _ HQ ms ms' hq h => ?_) hp hedit
      obtain ⟨holder, hr, h⟩ := bind_eq_ok.mp h
      cases h
      exact HQ.removeIn hw hq hr
    unfold Target.dropIn
    split
    · -- an extension that is left empty goes with its last member
      rename_i urn hext
      obtain ⟨s, hs, rfl⟩ := extension_registered ht hext (by simp [hd])
      exact W.dropEmptyExtension hs hv
    · exact hv

/-- A step keeps a property with a rule, unless it marks several elements as primary and the rule
leaves such steps out. -/
theorem step (W : PatchRule r kind single V U I P) {s : PatchStep} {resource resource' : Json}
    (hone : single → ¬s.MarksSeveral r kind resource) (hp : P resource.root)
    (h : s.apply r kind resource = .ok resource') : P resource'.root := by
  cases s with
  | assign how path value =>
    obtain ⟨t, ht, h⟩ := bind_eq_ok.mp h
    have hres := resolveText_resolved ht
    have hmark (hs : single) (a : Attribute) (hd : t.definition = some a) :
        ¬t.MarksSeveral a how value := fun hm => hone hs ⟨t, a, ht, hd, hm⟩
    split at h
    · -- null is assigned by removing
      exact W.remove hres hp h
    · cases how with
      | add => exact W.add hres hmark hp h
      | replace => exact W.replace hres hmark hp h
  | remove path value =>
    obtain ⟨t, ht, h⟩ := bind_eq_ok.mp h
    exact W.remove (resolveText_resolved ht) hp h

end PatchRule

/-! ### Objects stay objects -/

theorem isObject_declare {resource : Json} (urn : String) (h : resource.isObject = true) :
    (resource.declare urn).isObject = true := by
  unfold Json.declare
  split
  · rename_i v hv
    obtain ⟨_, -, rfl⟩ := Json.editObject_eq_ok hv
    rfl
  · exact h

theorem isObject_undeclare {resource : Json} (urn : String) (h : resource.isObject = true) :
    (resource.undeclare urn).isObject = true := by
  unfold Json.undeclare
  split
  · split
    · rfl
    · exact h
  · exact h

theorem isObject_dropMember {resource : Json} (name : String) (h : resource.isObject = true) :
    (resource.dropMember name).isObject = true := by
  cases resource <;> simp_all [Json.dropMember, Json.isObject]

theorem isObject_editAt {resource v : Json} {keys : List String} {f : Edit (Members Json)}
    (h : resource.editAt keys f = .ok v) : v.isObject = true := by
  obtain ⟨_, -, rfl⟩ := Json.editObject_eq_ok h
  rfl

section

variable {r : Registry} {kind : Kind} {resource resource' value : Json} {t : Target}

theorem Target.isObject_declareIn (h : resource.isObject = true) :
    (t.declareIn resource).isObject = true := by
  unfold Target.declareIn
  split
  · exact isObject_declare _ h
  · exact h

theorem Target.isObject_dropIn (h : resource.isObject = true) :
    (t.dropIn resource).isObject = true := by
  unfold Target.dropIn
  split
  · unfold Json.dropEmptyExtension
    split
    · exact isObject_undeclare _ (isObject_dropMember _ h)
    · exact h
  · exact h

theorem Target.isObject_remove {value : Option Json} (ho : resource.isObject = true)
    (h : t.remove r kind value resource = .ok resource') : resource'.isObject = true := by
  cases Target.remove_eq_ok h with
  | whole => exact isObject_undeclare _ (isObject_dropMember _ ho)
  | absent => exact ho
  | part _ _ _ hedit => exact isObject_dropIn (isObject_editAt hedit)

theorem Target.isObject_add (h : t.add value resource = .ok resource') :
    resource'.isObject = true := by
  cases Target.add_eq_ok h with
  | whole => exact isObject_declare _ rfl
  | part _ hedit => exact isObject_declareIn (isObject_editAt hedit)

theorem Target.isObject_replace (h : t.replace value resource = .ok resource') :
    resource'.isObject = true := by
  cases Target.replace_eq_ok h with
  | whole => exact isObject_declare _ rfl
  | part _ _ hedit => exact isObject_declareIn (isObject_editAt hedit)

/-- A step that changes an object leaves an object. -/
theorem PatchStep.apply_isObject {s : PatchStep} (ho : resource.isObject = true)
    (h : s.apply r kind resource = .ok resource') : resource'.isObject = true := by
  cases s with
  | remove path value =>
    obtain ⟨t, -, h⟩ := bind_eq_ok.mp h
    exact Target.isObject_remove ho h
  | assign how path value =>
    obtain ⟨t, -, h⟩ := bind_eq_ok.mp h
    split at h
    · exact Target.isObject_remove ho h
    · cases how with
      | add => exact Target.isObject_add h
      | replace => exact Target.isObject_replace h

end

section

variable {r : Registry} {kind : Kind} {V U : Attribute → Json → Prop}
  {I : List Attribute → Members Json → Prop} {P : Members Json → Prop} {root : Members Json}
  {v : Json}

/-- A run of steps on an object keeps a property with a rule that covers all steps. -/
theorem PatchRule.run (W : PatchRule r kind False V U I P) {steps : List PatchStep} (hp : P root)
    (h : PatchStep.run r kind steps (.obj root) = .ok v) : ∃ root', v = .obj root' ∧ P root' := by
  have hstart : (Json.obj root).isObject = true ∧ P (Json.obj root).root := ⟨rfl, hp⟩
  have hrun := PatchStep.run_keeps (P := fun v => v.isObject = true ∧ P v.root)
    (fun s resource resource' hv hs =>
      ⟨PatchStep.apply_isObject hv.1 hs, W.step (fun hf => hf.elim) hv.2 hs⟩)
    hstart h
  cases v with
  | obj root' => exact ⟨root', rfl, hrun.2⟩
  | _ => simp [Json.isObject] at hrun

theorem PatchRule.apply (W : PatchRule r kind False V U I P) {op : Operation} (hp : P root)
    (h : op.apply r kind (.obj root) = .ok v) : ∃ root', v = .obj root' ∧ P root' :=
  W.run hp (Operation.apply_run h)

theorem PatchRule.applyAll (W : PatchRule r kind False V U I P) {ops : List Operation} (hp : P root)
    (h : Operation.applyAll r kind ops (.obj root) = .ok v) : ∃ root', v = .obj root' ∧ P root' :=
  W.run hp (Operation.applyAll_run h)

end

end Roster
