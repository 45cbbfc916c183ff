import Roster.Proofs.Patch.Addressing
import Roster.Proofs.Patch.Edits

/-! What the edits at a target keep. A rule names the edits that a property of a list, of a value or
of an object has to survive; a property with a rule is then kept by every addition, replacement and
removal, whatever branch it takes. -/

namespace Roster

/-- A condition selects at most one of the first `n` indices. -/
def AtMostOne (selected : Nat → Bool) (n : Nat) : Prop :=
  ∀ i j, i < n → j < n → selected i = true → selected j = true → i = j

/-- A property of the list held by `a` that its edits keep. With `single`, only those edits count
that mark at most one of the selected elements as primary. -/
structure ListRule (a : Attribute) (single : Prop) (L : List Json → Prop) : Prop where
  empty : L []
  append {items : List Json} {x v : Json} :
    L items → checkSingle a x = .ok v → L (appendElement items v)
  whole {items : List Json} {x : Json} :
    checkElements a x = .ok items → (items.filter Json.isPrimary).length ≤ 1 → L items
  assign {items items' : List Json} {selected : Nat → Bool} {sub : Attribute} {x new : Json} :
    L items → Defined a.subAttributes sub → checkValue sub x = .ok new →
    (single → sub.marksPrimary new = true → AtMostOne selected items.length) →
    editSelected selected (setSub sub new) 0
      (if sub.marksPrimary new then demoteOthers selected items else items) = .ok items' →
    L items'
  merge {items items' : List Json} {selected : Nat → Bool} {x : Json} {incoming : Members Json} :
    L items → checkMembers a.name a.subAttributes x = .ok incoming →
    (single → Json.isPrimary (.obj incoming) = true → AtMostOne selected items.length) →
    editSelected selected
      (Json.editObject a.name fun members => .ok (Members.setAll members incoming)) 0
      (if Json.isPrimary (.obj incoming) then demoteOthers selected items else items) = .ok items' →
    L items'
  renew {items items' : List Json} {selected : Nat → Bool} {x new : Json} :
    L items → checkSingle a x = .ok new →
    editSelected selected (fun _ => .ok new) 0
      (if new.isPrimary then demoteOthers selected items else items) = .ok items' →
    L (dropRepeats items')
  part {items items' : List Json} : L items → items'.Sublist items → L items'
  drop {items items' : List Json} {selected : Nat → Bool} {sub : Attribute} :
    L items → Defined a.subAttributes sub →
    editSelected selected (dropSub sub) 0 items = .ok items' → L items'

/-- A property of single elements that the edits of an element keep. -/
structure ElementRule (a : Attribute) (E : Json → Prop) : Prop where
  checked {x v : Json} : checkSingle a x = .ok v → E v
  demoted {v : Json} : E v → E v.demoted
  assign {v w x new : Json} {sub : Attribute} : E v → Defined a.subAttributes sub →
    checkValue sub x = .ok new → setSub sub new v = .ok w → E w
  merge {v w x : Json} {incoming : Members Json} : E v →
    checkMembers a.name a.subAttributes x = .ok incoming →
    Json.editObject a.name (fun members => .ok (Members.setAll members incoming)) v = .ok w → E w
  drop {v w : Json} {sub : Attribute} : E v → Defined a.subAttributes sub →
    dropSub sub v = .ok w → E w

/-- What every edit of an element keeps, every edit of a list keeps of all its elements. -/
theorem ElementRule.listRule {a : Attribute} {E : Json → Prop} (R : ElementRule a E)
    (single : Prop) : ListRule a single fun items => ∀ v ∈ items, E v where
  empty := by simp
  append hi hv := forall_appendElement (fun _ => R.demoted) hi (R.checked hv)
  whole hi _ := fun v hv => R.checked (checkElements_checked _ hi v hv)
  assign hi hs hnew _ h := by
    refine forall_editSelected (fun v w hv hw => R.assign hv hs hnew hw) h ?_
    split_ifs
    · exact forall_demoteOthers (fun _ => R.demoted) hi
    · exact hi
  merge hi hm _ h := by
    refine forall_editSelected (fun v w hv hw => R.merge hv hm hw) h ?_
    split_ifs
    · exact forall_demoteOthers (fun _ => R.demoted) hi
    · exact hi
  renew hi hnew h := by
    refine fun v hv => ?_
    refine forall_editSelected (fun _ w _ hw => ?_) h ?_ v ((dropRepeats_sublist _).subset hv)
    · cases hw
      exact R.checked hnew
    · split_ifs
      · exact forall_demoteOthers (fun _ => R.demoted) hi
      · exact hi
  part hi hsub := fun v hv => hi v (hsub.subset hv)
  drop hi hs h := forall_editSelected (fun v w hv hw => R.drop hv hs hw) h hi

/-- A property of the values of `a`: lists by a rule, single values when they are checked or merged
with checked members. -/
structure ValueRule (a : Attribute) (single : Prop) (V : Json → Prop) : Prop where
  listed : a.multiValued = true → ListRule a single fun items => V (.arr items)
  checked {x v : Json} : a.multiValued = false → checkSingle a x = .ok v → V v
  merged {held incoming : Members Json} {x : Json} : a.multiValued = false → a.type = .complex →
    (V (.obj held) ∨ held = []) → checkMembers a.name a.subAttributes x = .ok incoming →
    V (.obj (Members.setAll held incoming))

/-- A property of an object that holds the attributes of `definitions`, whose values are to have
the property `V`. -/
structure HolderRule (definitions : List Attribute) (single : Prop) (V : Attribute → Json → Prop)
    (P : Members Json → Prop) : Prop where
  value {a : Attribute} : Defined definitions a → ValueRule a single (V a)
  found {ms : Members Json} {a : Attribute} {v : Json} :
    P ms → Defined definitions a → Members.find? ms a.name = some v → V a v
  set {ms : Members Json} {a : Attribute} {v : Json} :
    P ms → Defined definitions a → V a v → P (Members.set ms a.name v)
  putHeld {ms : Members Json} {a : Attribute} {v : Json} :
    P ms → Defined definitions a → V a v → P (Members.putHeld ms a.name v)
  remove {ms : Members Json} {a : Attribute} :
    P ms → Defined definitions a → (a.required = false ∨ a.multiValued = true) →
    P (Members.remove ms a.name)

/-- Any property at all of values has a rule. -/
theorem anyValue_rule (a : Attribute) (single : Prop) : ValueRule a single fun _ => True where
  listed _ := ⟨trivial, fun _ _ => trivial, fun _ _ => trivial, fun _ _ _ _ _ => trivial,
    fun _ _ _ _ => trivial, fun _ _ _ => trivial, fun _ _ => trivial, fun _ _ _ => trivial⟩
  checked _ _ := trivial
  merged _ _ _ _ := trivial

theorem anyHolder_rule (definitions : List Attribute) (single : Prop) :
    HolderRule definitions single (fun _ _ => True) fun _ => True where
  value _ := anyValue_rule _ single
  found _ _ _ := trivial
  set _ _ _ := trivial
  putHeld _ _ _ := trivial
  remove _ _ _ := trivial

/-- A property of single members has a rule where it says of an attribute, under every spelling of
its name, what its value is to have. -/
theorem HolderRule.ofMembers {definitions : List Attribute} {single : Prop}
    {V : Attribute → Json → Prop} {M : String × Json → Prop}
    (hv : ∀ {a}, Defined definitions a → ValueRule a single (V a))
    (hM : ∀ {a key v}, Defined definitions a → sameName a.name key = true →
      (M (key, v) ↔ V a v)) :
    HolderRule definitions single V fun ms => ∀ m ∈ ms, M m where
  value := hv
  found h hd hf := by
    obtain ⟨key, hs, hm⟩ := Members.mem_of_find? hf
    exact (hM hd hs).mp (h _ hm)
  set h hd hv := Members.forall_set h ((hM hd (sameName_refl _)).mpr hv)
  putHeld h hd hv := Members.forall_putHeld h fun _ hs => (hM hd hs).mpr hv
  remove h _ _ := Members.forall_remove _ h

/-- The assignment gives `primary` to several selected elements at once. -/
def Target.MarksSeveral (t : Target) (a : Attribute) (how : Assignment) (value : Json) : Prop :=
  ∃ indices, t.selection = .elements indices ∧ 2 ≤ indices.length ∧
    ((∃ sub new, t.sub = some sub ∧ checkValue sub value = .ok new ∧
        sub.marksPrimary new = true) ∨
      (how = .add ∧ t.sub = none ∧ ∃ incoming,
        checkMembers a.name a.subAttributes value = .ok incoming ∧
        Json.isPrimary (.obj incoming) = true))

theorem atMostOne_contains {indices : List Nat} (h : indices.length < 2) (n : Nat) :
    AtMostOne indices.contains n := by
  intro i j _ _ hi hj
  match indices, h with
  | [], _ => simp at hi
  | [k], _ => simp_all

/-- Every element of a list is set at once, where there are any; as primary only one alone. -/
theorem setEvery_eq_ok {a sub : Attribute} {value : Json} {holder holder' : Members Json}
    (h : setEvery a sub value holder = .ok holder') :
    ∃ new items, checkValue sub value = .ok new ∧
      (sub.marksPrimary new = true → (Members.listAt holder a.name).length = 1) ∧
      editSelected (fun _ => true) (setSub sub new) 0 (Members.listAt holder a.name) = .ok items ∧
      Members.putHeld holder a.name (.arr items) = holder' := by
  obtain ⟨new, hnew, h⟩ := bind_eq_ok.mp h
  split at h
  · rename_i v rest hf
    rw [guard_eq_ok] at h
    obtain ⟨hone, h⟩ := h
    obtain ⟨items, hedit, rfl⟩ := Members.editList_eq_ok h
    have hlist : Members.listAt holder a.name = v :: rest := by
      simp [Members.listAt, hf, Json.items?]
    rw [mapM_eq_editSelected _ 0] at hedit
    rw [hlist]
    refine ⟨new, items, hnew, fun hmark => ?_, hedit, rfl⟩
    have hrest : rest = [] := by simpa [hmark] using hone
    simp [hrest]
  · cases h

namespace HolderRule

variable {definitions : List Attribute} {single : Prop} {V : Attribute → Json → Prop}
  {P : Members Json → Prop} {a : Attribute} {holder holder' : Members Json}

/-- The list held for a list attribute has the property of its values. -/
theorem listAt (H : HolderRule definitions single V P) (hd : Defined definitions a)
    (hm : a.multiValued = true) (hp : P holder) : V a (.arr (Members.listAt holder a.name)) := by
  unfold Members.listAt
  cases hf : Members.find? holder a.name with
  | none => exact ((H.value hd).listed hm).empty
  | some v =>
    cases v with
    | arr items => exact H.found hp hd hf
    | _ => exact ((H.value hd).listed hm).empty

theorem editList (H : HolderRule definitions single V P) (hd : Defined definitions a)
    (hm : a.multiValued = true) {f : Edit (List Json)} (hp : P holder)
    (hf : ∀ items items', V a (.arr items) → f items = .ok items' → V a (.arr items'))
    (h : Members.editList a.name f holder = .ok holder') : P holder' := by
  obtain ⟨items, hi, rfl⟩ := Members.editList_eq_ok h
  exact H.putHeld hp hd (hf _ _ (H.listAt hd hm hp) hi)

theorem editHeldList (H : HolderRule definitions single V P) (hd : Defined definitions a)
    (hm : a.multiValued = true) {f : Edit (List Json)} (hp : P holder)
    (hf : ∀ items items', V a (.arr items) → f items = .ok items' → V a (.arr items'))
    (h : Members.editHeldList a.name f holder = .ok holder') : P holder' := by
  rcases Members.editHeldList_eq_ok h with rfl | ⟨items, hi, rfl⟩
  · exact hp
  · exact H.putHeld hp hd (hf _ _ (H.listAt hd hm hp) hi)

theorem setSelected (H : HolderRule definitions single V P) (hd : Defined definitions a)
    (hm : a.multiValued = true) {sub : Attribute} (hs : Defined a.subAttributes sub)
    {indices : List Nat} {value : Json} (hp : P holder)
    (hone : single → ∀ new, checkValue sub value = .ok new → sub.marksPrimary new = true →
      indices.length < 2)
    (h : Roster.setSelected a sub indices value holder = .ok holder') : P holder' := by
  obtain ⟨new, hnew, h⟩ := bind_eq_ok.mp h
  refine H.editList hd hm hp (fun items items' hi h => ?_) h
  refine ((H.value hd).listed hm).assign hi hs hnew (fun hsingle hmark => ?_) h
  exact atMostOne_contains (hone hsingle new hnew hmark) _

/-- Every element is set at once only where this marks no second one as primary. -/
theorem setEvery (H : HolderRule definitions single V P) (hd : Defined definitions a)
    (hm : a.multiValued = true) {sub : Attribute} (hs : Defined a.subAttributes sub) {value : Json}
    (hp : P holder) (h : Roster.setEvery a sub value holder = .ok holder') : P holder' := by
  obtain ⟨new, items, hnew, hone, hedit, rfl⟩ := setEvery_eq_ok h
  have hedit' : editSelected (fun _ => true) (setSub sub new) 0
      (if sub.marksPrimary new then demoteOthers (fun _ => true) (Members.listAt holder a.name)
        else Members.listAt holder a.name) = .ok items := by
    rwa [demoteOthers_all, ite_self]
  refine H.putHeld hp hd (((H.value hd).listed hm).assign (H.listAt hd hm hp) hs hnew
    (fun _ hmark i j hi hj _ _ => ?_) hedit')
  have hlength := hone hmark
  omega

end HolderRule

/-! ### The three ways of editing -/

theorem seedElement_checked {t : Target} {a : Attribute} {value element : Json}
    (h : t.seedElement a value = .ok element) : ∃ x, checkSingle a x = .ok element := by
  unfold Target.seedElement at h
  split at h
  · simp at h
  · split at h
    · exact ⟨_, h⟩
    · exact ⟨_, h⟩
    · simp at h

/-- Where no immutable sub-attribute would change, members are merged one by one. -/
theorem merge_eq_ok {a : Attribute} {incoming held merged : Members Json}
    (h : incoming.foldlM (fun members m => do
      if let some sub := a.subAttribute? m.1 then
        checkImmutable sub (Members.find? members m.1) m.2
      .ok (Members.set members m.1 m.2)) held = .ok merged) :
    Members.setAll held incoming = merged := by
  induction incoming generalizing held with
  | nil =>
    cases h
    rfl
  | cons m rest ih =>
    obtain ⟨next, hnext, h⟩ := bind_eq_ok.mp h
    have hset : Members.set held m.1 m.2 = next := by
      cases hsub : a.subAttribute? m.1 with
      | none => simpa [hsub] using hnext
      | some sub =>
        obtain ⟨_, -, hnext⟩ := bind_eq_ok.mp (by simpa [hsub] using hnext)
        simpa using hnext
    subst hset
    exact ih h

theorem foldl_appendElement {a : Attribute} {single : Prop} {L : List Json → Prop}
    (R : ListRule a single L) {items held : List Json}
    (hc : ∀ v ∈ items, checkSingle a v = .ok v) (hl : L held) :
    L (items.foldl appendElement held) := by
  induction items generalizing held with
  | nil => exact hl
  | cons v rest ih =>
    obtain ⟨hv, hrest⟩ := List.forall_mem_cons.mp hc
    exact ih hrest (R.append hl hv)

namespace HolderRule

variable {definitions : List Attribute} {single : Prop} {V : Attribute → Json → Prop}
  {P : Members Json → Prop} {a : Attribute} {holder holder' : Members Json} {t : Target}
  {resource : Json}

theorem addIn (H : HolderRule definitions single V P) (ht : t.Within resource definitions a)
    {value : Json} (hone : single → ¬t.MarksSeveral a .add value) (hp : P holder)
    (h : t.addIn a value holder = .ok holder') : P holder' := by
  have hd := ht.defined
  unfold Target.addIn at h
  split at h
  · -- the attribute as a whole
    split_ifs at h with hm hc
    · obtain ⟨items, hi, h⟩ := bind_eq_ok.mp h
      refine H.editList hd hm hp (fun held items' hheld h => ?_) h
      cases h
      exact foldl_appendElement ((H.value hd).listed hm) (checkElements_checked _ hi) hheld
    · obtain ⟨incoming, hi, h⟩ := bind_eq_ok.mp h
      obtain ⟨held, inner, hheld, hinner, rfl⟩ := Members.editObject_eq_ok h
      refine H.putHeld hp hd ?_
      have hsingular : a.multiValued = false := by simpa using hm
      have hcomplex : a.type = .complex := by simpa using hc
      rw [← merge_eq_ok hinner]
      exact (H.value hd).merged hsingular hcomplex
        (hheld.imp (fun hf => H.found hp hd hf) id) hi
    · obtain ⟨new, hnew, h⟩ := bind_eq_ok.mp h
      obtain ⟨-, -, h⟩ := bind_eq_ok.mp h
      cases h
      have hsingular : a.multiValued = false := by simpa using hm
      rw [checkValue_singular hsingular] at hnew
      exact H.set hp hd ((H.value hd).checked hsingular hnew)
  · -- a sub-attribute of every element
    rename_i sub _ hsub
    have hm := ht.listed_of_sub hsub
    exact H.setEvery hd hm (ht.sub sub hsub) hp h
  · -- an element made from the filter
    rename_i hsel
    have hm := ht.listed_of_elements hsel
    obtain ⟨element, he, h⟩ := bind_eq_ok.mp h
    obtain ⟨x, hx⟩ := seedElement_checked he
    refine H.editList hd hm hp (fun held items' hheld h => ?_) h
    cases h
    exact ((H.value hd).listed hm).append hheld hx
  · -- a sub-attribute of the selected elements
    rename_i indices sub _ hsel hsub
    have hm := ht.listed_of_elements hsel
    refine H.setSelected hd hm (ht.sub sub hsub) hp (fun hs new hnew hmark => ?_) h
    by_contra hlt
    exact hone hs ⟨indices, hsel, not_lt.mp hlt, .inl ⟨sub, new, hsub, hnew, hmark⟩⟩
  · -- members for the selected elements
    rename_i indices _ hsel hsub
    have hm := ht.listed_of_elements hsel
    obtain ⟨incoming, hi, h⟩ := bind_eq_ok.mp h
    refine H.editList hd hm hp (fun held items' hheld h => ?_) h
    refine ((H.value hd).listed hm).merge hheld hi (fun hs hmark => ?_) h
    refine atMostOne_contains ?_ _
    by_contra hlt
    exact hone hs ⟨indices, hsel, not_lt.mp hlt, .inr ⟨rfl, hsub, incoming, hi, hmark⟩⟩

theorem replaceIn (H : HolderRule definitions single V P) (ht : t.Within resource definitions a)
    {value : Json} (hone : single → ¬t.MarksSeveral a .replace value) (hp : P holder)
    (h : t.replaceIn a value holder = .ok holder') : P holder' := by
  have hd := ht.defined
  unfold Target.replaceIn at h
  split at h
  · -- the attribute as a whole
    obtain ⟨new, hnew, h⟩ := bind_eq_ok.mp h
    rw [guard_eq_ok] at h
    obtain ⟨hprimary, h⟩ := h
    obtain ⟨-, -, h⟩ := bind_eq_ok.mp h
    cases h
    refine H.set hp hd ?_
    cases hm : a.multiValued with
    | true =>
      rw [checkValue_several hm] at hnew
      obtain ⟨items, hi, rfl⟩ := map_eq_ok.mp hnew
      refine ((H.value hd).listed hm).whole hi ?_
      exact not_lt.mp fun hlt => hprimary (by simp [hm, Json.flatten, hlt])
    | false =>
      rw [checkValue_singular hm] at hnew
      exact (H.value hd).checked hm hnew
  · -- a sub-attribute of every element
    rename_i sub _ hsub
    have hm := ht.listed_of_sub hsub
    exact H.setEvery hd hm (ht.sub sub hsub) hp h
  · -- a sub-attribute of the selected elements
    rename_i indices sub hsel hsub
    have hm := ht.listed_of_elements hsel
    refine H.setSelected hd hm (ht.sub sub hsub) hp (fun hs new hnew hmark => ?_) h
    by_contra hlt
    exact hone hs ⟨indices, hsel, not_lt.mp hlt, .inl ⟨sub, new, hsub, hnew, hmark⟩⟩
  · -- the selected elements
    rename_i indices hsel hsub
    have hm := ht.listed_of_elements hsel
    obtain ⟨new, hnew, h⟩ := bind_eq_ok.mp h
    refine H.editList hd hm hp (fun held items' hheld h => ?_) h
    obtain ⟨edited, hedited, h⟩ := bind_eq_ok.mp h
    cases h
    exact ((H.value hd).listed hm).renew hheld hnew hedited

/-- A list that loses its last value is removed with the attribute. -/
theorem dropEmptyList (H : HolderRule definitions single V P) (hd : Defined definitions a)
    (hr : a.required = false ∨ a.multiValued = true) (hp : P holder) :
    P (Members.dropEmptyList a.name holder) := by
  unfold Members.dropEmptyList
  split
  · exact H.remove hp hd hr
  · exact hp

theorem removeIn (H : HolderRule definitions single V P) (ht : t.Within resource definitions a)
    {value : Option Json} (hp : P holder) (h : t.removeIn a value holder = .ok holder') :
    P (Members.dropEmptyList a.name holder') := by
  have hd := ht.defined
  unfold Target.removeIn at h
  split at h
  · -- the attribute as a whole, or the values that are named
    rw [guard_eq_ok] at h
    obtain ⟨hreq, h⟩ := h
    have hr : a.required = false ∨ a.multiValued = true := .inl (by simpa using hreq)
    refine H.dropEmptyList hd hr ?_
    split at h
    · rename_i named hm
      refine H.editHeldList hd hm hp (fun items items' hi h => ?_) h
      cases h
      exact ((H.value hd).listed hm).part hi List.filter_sublist
    · rw [guard_eq_ok] at h
      cases h.2
      exact H.remove hp hd hr
  · -- the selected elements
    rename_i indices hsel hsub
    have hm := ht.listed_of_elements hsel
    refine H.dropEmptyList hd (.inr hm) ?_
    refine H.editHeldList hd hm hp (fun items items' hi h => ?_) h
    cases h
    exact ((H.value hd).listed hm).part hi (dropSelected_sublist _ _)
  · -- a sub-attribute
    rename_i sub hsub
    have hm := ht.listed_of_sub hsub
    rw [guard_eq_ok] at h
    refine H.dropEmptyList hd (.inr hm) ?_
    exact H.editHeldList hd hm hp
      (fun items items' hi h => ((H.value hd).listed hm).drop hi (ht.sub sub hsub) h) h.2

end HolderRule

end Roster
