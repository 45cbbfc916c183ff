import Roster.Proofs.Patch.Outcome
import Roster.Proofs.Patch.Primary

/-! Immutable sub-attributes of list elements under additions. An addition checks them in every way
of adding but one: members that are merged into the elements of a filter replace them unchecked. -/

namespace Roster

open Members

/-! ### Elements -/

/-- What an element has assigned of the immutable sub-attributes, another has as well. -/
def Attribute.SameImmutable (a : Attribute) (v w : Json) : Prop :=
  ∀ sub ∈ a.subAttributes, sub.mutability = .immutable →
    ∀ x ∈ v.member? sub.name, x.isPresent = true → w.member? sub.name = some x

/-- Members give an immutable sub-attribute another value than an element has assigned. -/
def Attribute.Repoints (a : Attribute) (incoming : Members Json) (v : Json) : Prop :=
  ∃ sub ∈ a.subAttributes, sub.mutability = .immutable ∧
    ∃ x ∈ v.member? sub.name, x.isPresent = true ∧ ∃ y ∈ find? incoming sub.name, y ≠ x

instance (a : Attribute) (incoming : Members Json) (v : Json) : Decidable (a.Repoints incoming v) :=
  inferInstanceAs (Decidable (∃ sub ∈ a.subAttributes, sub.mutability = .immutable ∧
    ∃ x ∈ v.member? sub.name, x.isPresent = true ∧ ∃ y ∈ find? incoming sub.name, y ≠ x))

/-- Immutable sub-attributes hold single texts, and none has the name of another sub-attribute or
of `primary`. -/
def Attribute.ImmutableTexts (a : Attribute) : Prop :=
  ∀ sub ∈ a.subAttributes, sub.mutability = .immutable → sameName sub.name "primary" = false ∧
    ∀ other ∈ a.subAttributes, sameName sub.name other.name = true → other.name = sub.name ∧
      other.mutability = .immutable ∧ other.multiValued = false ∧
      (other.type = .string ∨ other.type = .reference)

theorem attributes_immutableTexts (kind : Kind) : ∀ a ∈ kind.attributes, a.ImmutableTexts := by
  unfold Attribute.ImmutableTexts
  cases kind <;> decide +kernel

section

variable {a sub : Attribute} {v w u x new : Json} {incoming : Members Json}
  {items items' more : List Json}

theorem Attribute.SameImmutable.refl (a : Attribute) (v : Json) : a.SameImmutable v v :=
  fun _ _ _ _ hx _ => hx

theorem Attribute.SameImmutable.trans (h : a.SameImmutable v w) (h' : a.SameImmutable w u) :
    a.SameImmutable v u :=
  fun sub hsub him x hx hp => h' sub hsub him x (h sub hsub him x hx hp) hp

theorem sameImmutable_demoted (ha : a.ImmutableTexts) (v : Json) : a.SameImmutable v v.demoted := by
  intro sub hsub him x hx _
  cases v with
  | obj ms =>
    rw [Json.demoted]
    split_ifs
    · exact (find?_set_of_not_same _ (ha sub hsub him).1).trans hx
    · exact hx
  | _ => exact hx

/-- A value that is checked for a text is a text. -/
theorem checkValue_text (hm : a.multiValued = false) (ht : a.type = .string ∨ a.type = .reference)
    (h : checkValue a x = .ok new) : ∃ s, new = .str s := by
  have hne : a.type ≠ .complex := by rcases ht with ht | ht <;> simp [ht]
  rw [checkValue_singular hm, checkSingle_of_ne_complex hne, checkScalar_eq_ok] at h
  rcases ht with ht | ht <;>
  · rw [ht] at h
    obtain ⟨s, -, rfl⟩ := Option.map_eq_some_iff.mp h
    exact ⟨s, rfl⟩

theorem eq_str_of_same {s : String} (h : x.same (.str s) = true) : x = .str s := by
  cases x <;> simp_all [Json.same]

/-- A sub-attribute is set only where no assigned immutable value would change. -/
theorem sameImmutable_setSub (ha : a.ImmutableTexts) (hsub : sub ∈ a.subAttributes)
    (hnew : checkValue sub x = .ok new) (h : setSub sub new v = .ok w) : a.SameImmutable v w := by
  obtain ⟨members, hmembers, rfl⟩ := Json.editObject_eq_ok h
  obtain ⟨_, hcheck, hmembers⟩ := bind_eq_ok.mp hmembers
  cases hmembers
  intro im him himmutable y hy hp
  rw [Json.member?_eq_find?] at hy ⊢
  cases hsame : sameName im.name sub.name with
  | false => exact (find?_set_of_not_same new hsame).trans hy
  | true =>
    obtain ⟨hname, hmut, hsingle, htext⟩ := (ha im him himmutable).2 sub hsub hsame
    obtain ⟨s, rfl⟩ := checkValue_text hsingle htext hnew
    unfold checkImmutable at hcheck
    rw [guard_eq_ok, hname, hy] at hcheck
    have hys : y.same (.str s) = true := by simpa [hmut, hp] using hcheck.1
    rw [eq_str_of_same hys, hname]
    exact find?_set_self v.root im.name (.str s)

/-- Checked members spell an immutable sub-attribute as its definition does. -/
theorem CheckedObject.spells_immutable (ha : a.ImmutableTexts)
    (hi : CheckedObject a.subAttributes incoming) (hsub : sub ∈ a.subAttributes)
    (him : sub.mutability = .immutable) :
    ∀ k ∈ keys incoming, sameName sub.name k = true → k = sub.name := by
  intro k hk hs
  obtain ⟨m, hm, rfl⟩ := List.mem_map.mp hk
  obtain ⟨b, hb, hname, -⟩ := (hi.checked m hm).checked
  rw [← hname] at hs ⊢
  exact ((ha sub hsub him).2 b (findAttribute?_mem hb) hs).1

/-- Merged members keep the immutable values of an element unless they give one another value. -/
theorem sameImmutable_merge_iff (ha : a.ImmutableTexts)
    (hi : CheckedObject a.subAttributes incoming)
    (h : Json.editObject a.name (fun members => .ok (setAll members incoming)) v = .ok w) :
    a.SameImmutable v w ↔ ¬a.Repoints incoming v := by
  obtain ⟨members, hmembers, rfl⟩ := Json.editObject_eq_ok h
  cases hmembers
  -- what the element has afterwards, and what the members give
  have after {sub : Attribute} (hsub : sub ∈ a.subAttributes) (him : sub.mutability = .immutable) :
      Json.member? (.obj (setAll v.root incoming)) sub.name =
        (find? incoming sub.name).or (v.member? sub.name) := by
    have hspell := hi.spells_immutable ha hsub him
    rw [find?_eq_get? hspell, v.member?_eq_find?]
    exact find?_setAll hi.sorted hspell v.root
  constructor
  · rintro hsame ⟨sub, hsub, him, x, hx, hp, y, hy, hne⟩
    have hkept := hsame sub hsub him x hx hp
    rw [after hsub him, hy] at hkept
    exact hne (Option.some.inj hkept)
  · intro hkeep sub hsub him x hx hp
    rw [after hsub him, hx]
    cases hy : find? incoming sub.name with
    | none => rfl
    | some y =>
      by_contra hne
      exact hkeep ⟨sub, hsub, him, x, hx, hp, y, hy, fun heq => hne (heq ▸ rfl)⟩

/-! ### Lists -/

/-- Every element of a list is still at its index, with the immutable values that it had. -/
def Attribute.KeepsImmutable (a : Attribute) (items items' : List Json) : Prop :=
  ∀ (i : Nat) (v : Json), items[i]? = some v → ∃ w, items'[i]? = some w ∧ a.SameImmutable v w

theorem demoteOthers_getElem? (kept : Nat → Bool) {i : Nat} (h : items[i]? = some v) :
    (demoteOthers kept items)[i]? = some (if kept i then v else v.demoted) := by
  simp [demoteOthers, h]

namespace Attribute.KeepsImmutable

theorem refl (a : Attribute) (items : List Json) : a.KeepsImmutable items items :=
  fun _ v hv => ⟨v, hv, .refl a v⟩

theorem trans (h : a.KeepsImmutable items items') (h' : a.KeepsImmutable items' more) :
    a.KeepsImmutable items more := by
  intro i v hv
  obtain ⟨w, hw, hvw⟩ := h i v hv
  obtain ⟨u, hu, hwu⟩ := h' i w hw
  exact ⟨u, hu, hvw.trans hwu⟩

theorem append (a : Attribute) (items more : List Json) : a.KeepsImmutable items (items ++ more) :=
  fun _ v hv => ⟨v, List.getElem?_append_left (List.getElem?_eq_some_iff.mp hv).1 ▸ hv, .refl a v⟩

theorem demoted (ha : a.ImmutableTexts) (items : List Json) :
    a.KeepsImmutable items (items.map Json.demoted) :=
  fun _ v hv => ⟨v.demoted, by rw [List.getElem?_map, hv]; rfl, sameImmutable_demoted ha v⟩

theorem demoteOthers (ha : a.ImmutableTexts) (kept : Nat → Bool) (items : List Json) :
    a.KeepsImmutable items (Roster.demoteOthers kept items) := by
  intro i v hv
  refine ⟨_, demoteOthers_getElem? kept hv, ?_⟩
  split_ifs
  · exact .refl a v
  · exact sameImmutable_demoted ha v

theorem appendElement (ha : a.ImmutableTexts) (items : List Json) (v : Json) :
    a.KeepsImmutable items (Roster.appendElement items v) := by
  unfold Roster.appendElement
  split_ifs
  · exact .refl a items
  · exact (demoted ha items).trans (append a _ [v])
  · exact append a items [v]

theorem foldl_appendElement (ha : a.ImmutableTexts) (items more : List Json) :
    a.KeepsImmutable items (more.foldl Roster.appendElement items) := by
  induction more generalizing items with
  | nil => exact .refl a items
  | cons v rest ih => exact (appendElement ha items v).trans (ih _)

/-- What every edit of an element keeps is kept at all indices. -/
theorem editSelected {selected : Nat → Bool} {f : Edit Json}
    (hf : ∀ v w, f v = .ok w → a.SameImmutable v w)
    (h : Roster.editSelected selected f 0 items = .ok items') : a.KeepsImmutable items items' := by
  intro i v hv
  have hlt : i < items'.length := by
    rw [editSelected_length h]
    exact (List.getElem?_eq_some_iff.mp hv).1
  have hw := List.getElem?_eq_getElem hlt
  obtain ⟨v', hv', hedit⟩ := editSelected_getElem? h hw
  obtain rfl : v = v' := Option.some.inj (hv.symm.trans hv')
  refine ⟨_, hw, ?_⟩
  split_ifs at hedit
  · exact hf v _ hedit
  · rw [hedit]
    exact .refl a v

end Attribute.KeepsImmutable

/-- Members that are merged into the selected elements keep the immutable values of a list when they
keep those of every selected element, and only then. -/
theorem keepsImmutable_merge_iff (ha : a.ImmutableTexts)
    (hi : CheckedObject a.subAttributes incoming) {selected : Nat → Bool}
    (h : editSelected selected
      (Json.editObject a.name fun members => .ok (setAll members incoming)) 0
      (if Json.isPrimary (.obj incoming) then demoteOthers selected items else items) =
        .ok items') :
    a.KeepsImmutable items items' ↔
      ∀ (i : Nat) (v : Json), items[i]? = some v → selected i = true → ¬a.Repoints incoming v := by
  -- the others may be demoted first, but not the selected ones
  have merged {i : Nat} {v : Json} (hv : items[i]? = some v) : ∃ w, items'[i]? = some w ∧
      if selected i then
        Json.editObject a.name (fun members => .ok (setAll members incoming)) v = .ok w
      else a.SameImmutable v w := by
    have hlt : i < items'.length := by
      rw [editSelected_length h]
      split_ifs <;> simpa [demoteOthers] using (List.getElem?_eq_some_iff.mp hv).1
    have hw := List.getElem?_eq_getElem hlt
    obtain ⟨u, hu, hedit⟩ := editSelected_getElem? h hw
    rw [Nat.zero_add] at hedit
    have hbefore : if selected i then u = v else a.SameImmutable v u := by
      split_ifs at hu with hp
      · rw [demoteOthers_getElem? selected hv] at hu
        split_ifs at hu ⊢
        · exact (Option.some.inj hu).symm
        · exact Option.some.inj hu ▸ sameImmutable_demoted ha v
      · obtain rfl := Option.some.inj (hu.symm.trans hv)
        split_ifs
        · rfl
        · exact .refl a u
    refine ⟨_, hw, ?_⟩
    split_ifs at hedit hbefore ⊢
    · rwa [hbefore] at hedit
    · rwa [hedit]
  constructor
  · intro hkeeps i v hv hs
    obtain ⟨w, hw, hmerge⟩ := merged hv
    rw [if_pos hs] at hmerge
    obtain ⟨w', hw', hsame⟩ := hkeeps i v hv
    obtain rfl : w = w' := Option.some.inj (hw.symm.trans hw')
    exact (sameImmutable_merge_iff ha hi hmerge).mp hsame
  · intro hkeeps i v hv
    obtain ⟨w, hw, hmerge⟩ := merged hv
    refine ⟨w, hw, ?_⟩
    split_ifs at hmerge with hs
    · exact (sameImmutable_merge_iff ha hi hmerge).mpr (hkeeps i v hv hs)
    · exact hmerge

end

/-! ### Resources -/

/-- Every element of a list of a resource is still at its index later on, with the immutable values
that it had. -/
def Json.KeepsImmutable (kind : Kind) (resource later : Json) : Prop :=
  ∀ key a items, kind.attribute? key = some a → a.multiValued = true →
    resource.get? key = some (.arr items) →
    ∃ items', later.get? key = some (.arr items') ∧ a.KeepsImmutable items items'

/-- The indices that a filter selects. -/
def Selection.indices? : Selection → Option (List Nat)
  | .whole => none
  | .elements indices => some indices

theorem Selection.indices?_eq_some {selection : Selection} {indices : List Nat} :
    selection.indices? = some indices ↔ selection = .elements indices := by
  cases selection <;> simp [Selection.indices?]

/-- The addition merges into an element of its filter members that give an immutable sub-attribute
another value than the element has assigned. -/
def Target.Repoints (t : Target) (value resource : Json) : Prop :=
  ∃ a ∈ t.definition, ∃ indices ∈ t.selection.indices?, t.sub.isNone = true ∧
    ∃ incoming ∈ (checkMembers a.name a.subAttributes value).toOption, ∃ i ∈ indices,
      ∃ v ∈ (listAt resource.root a.name)[i]?, a.Repoints incoming v

instance (t : Target) (value resource : Json) : Decidable (t.Repoints value resource) :=
  inferInstanceAs (Decidable (∃ a ∈ t.definition, ∃ indices ∈ t.selection.indices?,
    t.sub.isNone = true ∧
    ∃ incoming ∈ (checkMembers a.name a.subAttributes value).toOption, ∃ i ∈ indices,
      ∃ v ∈ (listAt resource.root a.name)[i]?, a.Repoints incoming v))

section

variable {kind : Kind} {root root' : Members Json} {a : Attribute} {items items' : List Json}
  {t : Target} {value v : Json}

/-- Lists that are held as they were keep everything. -/
theorem keepsImmutable_of_get? (h : ∀ key a, kind.attribute? key = some a → a.multiValued = true →
    get? root' key = get? root key) : Json.KeepsImmutable kind (.obj root) (.obj root') :=
  fun key a items ha hm hi => ⟨items, (h key a ha hm).trans hi, .refl a items⟩

theorem attribute?_of_sameName (hd : Defined kind.attributes a) {key : String}
    (hs : sameName a.name key = true) : kind.attribute? key = some a := by
  rw [Kind.attribute?, ← findAttribute?_congr _ hs, hd.found]

/-- The name of a singular attribute names no list. -/
theorem not_same_of_singular (hd : Defined kind.attributes a) (hm : a.multiValued = false)
    {key : String} {b : Attribute} (hb : kind.attribute? key = some b)
    (hbm : b.multiValued = true) : sameName a.name key = false := by
  rw [Bool.eq_false_iff]
  intro hs
  rw [attribute?_of_sameName hd hs] at hb
  cases hb
  simp [hm] at hbm

/-- A list that is put back decides for the whole resource. -/
theorem keepsImmutable_putHeld_iff (hd : Defined kind.attributes a) (hm : a.multiValued = true) :
    Json.KeepsImmutable kind (.obj root) (.obj (putHeld root a.name (.arr items'))) ↔
      a.KeepsImmutable (listAt root a.name) items' := by
  have hself := heldKey_sameName root a.name
  constructor
  · intro hkeeps
    cases hf : find? root a.name with
    | some held =>
      cases held with
      | arr items =>
        have hlist : listAt root a.name = items := by simp [listAt, hf, Json.items?]
        obtain ⟨later, hlater, hkept⟩ := hkeeps ((key? root a.name).getD a.name) a items
          (attribute?_of_sameName hd hself) hm ((get?_heldKey root a.name).trans hf)
        have hput : get? (putHeld root a.name (.arr items')) ((key? root a.name).getD a.name) =
          some (.arr items') := get?_insert_self _ _ _
        obtain rfl : items' = later := by simpa [Json.get?, Json.members?, hput] using hlater
        rwa [hlist]
      | _ => simp [Attribute.KeepsImmutable, listAt, hf, Json.items?]
    | none => simp [Attribute.KeepsImmutable, listAt, hf]
  · intro hkeeps key b items hb hbm hi
    by_cases hkey : key = (key? root a.name).getD a.name
    · subst hkey
      rw [attribute?_of_sameName hd hself] at hb
      cases hb
      have hlist : listAt root a.name = items := by
        have hfound : find? root a.name = some (.arr items) :=
          (get?_heldKey root a.name).symm.trans hi
        rw [listAt, hfound]
        rfl
      exact ⟨items', get?_insert_self _ _ _, hlist ▸ hkeeps⟩
    · exact ⟨items, (get?_insert_of_ne root _ hkey).trans hi, .refl b items⟩

/-- Setting a sub-attribute of elements keeps what is immutable in the list that is put back. -/
theorem setSelected_keepsImmutable (hd : Defined kind.attributes a) (hm : a.multiValued = true)
    {sub : Attribute} (hsub : Defined a.subAttributes sub) {indices : List Nat}
    (h : setSelected a sub indices value root = .ok root') :
    Json.KeepsImmutable kind (.obj root) (.obj root') := by
  have ha := attributes_immutableTexts kind a (findAttribute?_mem hd.found)
  obtain ⟨new, hnew, h⟩ := bind_eq_ok.mp h
  obtain ⟨items, hedit, rfl⟩ := editList_eq_ok h
  refine (keepsImmutable_putHeld_iff hd hm).mpr (.trans ?_ (.editSelected
    (fun v w => sameImmutable_setSub ha (findAttribute?_mem hsub.found) hnew) hedit))
  split_ifs
  · exact .demoteOthers ha _ _
  · exact .refl a _

theorem setEvery_keepsImmutable (hd : Defined kind.attributes a) (hm : a.multiValued = true)
    {sub : Attribute} (hsub : Defined a.subAttributes sub)
    (h : setEvery a sub value root = .ok root') :
    Json.KeepsImmutable kind (.obj root) (.obj root') := by
  have ha := attributes_immutableTexts kind a (findAttribute?_mem hd.found)
  obtain ⟨new, items, hnew, -, hedit, rfl⟩ := setEvery_eq_ok h
  exact (keepsImmutable_putHeld_iff hd hm).mpr (.editSelected
    (fun v w => sameImmutable_setSub ha (findAttribute?_mem hsub.found) hnew) hedit)

/-- An addition to a list at the top keeps immutable values unless it repoints an element. -/
theorem addIn_keepsImmutable_iff (ht : t.Within (.obj root) kind.attributes a)
    (hm : a.multiValued = true) (h : t.addIn a value root = .ok root') :
    Json.KeepsImmutable kind (.obj root) (.obj root') ↔ ¬t.Repoints value (.obj root) := by
  have hd := ht.defined
  have ha := attributes_immutableTexts kind a (findAttribute?_mem hd.found)
  -- only members for selected elements can repoint one
  have never (hsel : ∀ indices ∈ t.selection.indices?, t.sub.isNone = true → indices = []) :
      ¬t.Repoints value (.obj root) := by
    rintro ⟨b, -, indices, hindices, hsub, incoming, -, i, hi, -⟩
    rw [hsel indices hindices hsub] at hi
    cases hi
  have unselected (hsel : t.selection = .whole) : ¬t.Repoints value (.obj root) :=
    never (by simp [hsel, Selection.indices?])
  unfold Target.addIn at h
  split at h
  · rename_i hsel _
    rw [if_pos hm] at h
    obtain ⟨more, -, h⟩ := bind_eq_ok.mp h
    obtain ⟨items, hitems, rfl⟩ := editList_eq_ok h
    cases hitems
    refine iff_of_true ((keepsImmutable_putHeld_iff hd hm).mpr ?_) (unselected hsel)
    exact .foldl_appendElement ha _ _
  · rename_i sub hsel hsub
    exact iff_of_true (setEvery_keepsImmutable hd hm (ht.sub sub hsub) h) (unselected hsel)
  · rename_i hsel
    obtain ⟨element, -, h⟩ := bind_eq_ok.mp h
    obtain ⟨items, hitems, rfl⟩ := editList_eq_ok h
    cases hitems
    refine iff_of_true ((keepsImmutable_putHeld_iff hd hm).mpr ?_)
      (never (by simp [hsel, Selection.indices?]))
    exact .appendElement ha _ _
  · rename_i indices sub _ hsel hsub
    exact iff_of_true (setSelected_keepsImmutable hd hm (ht.sub sub hsub) h)
      (never (by simp [hsub]))
  · rename_i indices _ hsel hsub
    obtain ⟨incoming, hi, h⟩ := bind_eq_ok.mp h
    obtain ⟨items, hitems, rfl⟩ := editList_eq_ok h
    rw [keepsImmutable_putHeld_iff hd hm,
      keepsImmutable_merge_iff ha (checkMembers_checked hi) hitems]
    have hchecked : (checkMembers a.name a.subAttributes value).toOption = some incoming := by
      rw [hi]
      rfl
    constructor
    · rintro hkeeps ⟨b, hb, indices', hsel', -, incoming', hi', i, hmem, v, hv, hrepoints⟩
      obtain rfl : a = b := Option.some.inj (ht.definition.symm.trans hb)
      obtain rfl : indices = indices' :=
        Selection.elements.inj (hsel.symm.trans (Selection.indices?_eq_some.mp hsel'))
      obtain rfl : incoming = incoming' := Option.some.inj (hchecked.symm.trans hi')
      exact hkeeps i v hv (by simpa using hmem) hrepoints
    · intro hnever i v hv hmem hrepoints
      exact hnever ⟨a, ht.definition, indices, Selection.indices?_eq_some.mpr hsel, by simp [hsub],
        incoming, hchecked, i, by simpa using hmem, v, hv, hrepoints⟩

/-- Only elements of a list at the top are repointed. -/
theorem Target.Repoints.at_top {resource : Json} (ht : t.Resolved .standard kind resource)
    (h : t.Repoints value resource) :
    ∃ b, t.definition = some b ∧ b.multiValued = true ∧ t.container = [] := by
  obtain ⟨b, hb, indices, hsel, -⟩ := h
  obtain ⟨hm, hc, -⟩ := selected_at_top ht hb (Selection.indices?_eq_some.mp hsel)
  exact ⟨b, hb, hm, hc⟩

/-- The lists of a resource are held under other names than its extensions and its list of
schemas. -/
theorem declare_keepsLists {e : Schema} (he : Registered .standard kind e)
    (hothers : besides root' e.id = besides root e.id) :
    Json.KeepsImmutable kind (.obj root) ((Json.obj root').declare e.id) := by
  obtain ⟨later, hlater, hschemas⟩ := Json.declare_besides e.id root'
  rw [hlater]
  refine keepsImmutable_of_get? fun key b hb _ => ?_
  have hmem := findAttribute?_mem hb
  have hname := findAttribute?_sameName hb
  have hkey (other : String) (h : sameName b.name other = false) : sameName other key = false := by
    rw [sameName_comm] at h
    exact not_same_of_same h hname
  calc get? later key
    _ = get? root' key := get?_of_besides hschemas (hkey _ (schemas_not_attribute kind b hmem))
    _ = get? root key := get?_of_besides hothers
        (hkey _ (extension_not_same he (attributes_not_urn kind b hmem)))

/-- An addition keeps the immutable values of all elements unless it repoints one. -/
theorem Target.add_keepsImmutable_iff (ht : t.Resolved .standard kind (.obj root))
    (h : t.add value (.obj root) = .ok v) :
    Json.KeepsImmutable kind (.obj root) v ↔ ¬t.Repoints value (.obj root) := by
  cases Target.add_eq_ok h with
  | whole hd _ _ =>
    obtain ⟨e, he, hn, -⟩ := PatchRule.target_extension ht hd
    rw [hn]
    refine iff_of_true (declare_keepsLists he (besides_putHeld _ _ _)) fun hrepoints => ?_
    obtain ⟨b, hb, -⟩ := hrepoints.at_top ht
    simp [hd] at hb
  | @part a w hd hw =>
    have hb {b : Attribute} (h : t.definition = some b) : b = a :=
      Option.some.inj (h.symm.trans hd)
    cases editAt_edits ht hd hw with
    | top hc hnone hin hedit =>
      rw [Target.declareIn, hnone]
      cases hm : a.multiValued with
      | true => exact addIn_keepsImmutable_iff hin hm hedit
      | false =>
        refine iff_of_true (keepsImmutable_of_get? fun key b hb hbm => ?_) fun hrepoints => ?_
        · exact get?_of_besides (hin.addIn_besides hedit)
            (not_same_of_singular hin.defined hm hb hbm)
        · obtain ⟨b, hdb, hbm, -⟩ := hrepoints.at_top ht
          rw [hb hdb, hm] at hbm
          cases hbm
    | nested hdb hsingular hc hnone =>
      rw [Target.declareIn, hnone]
      refine iff_of_true (keepsImmutable_of_get? fun key b hb hbm => ?_) fun hrepoints => ?_
      · exact get?_of_besides (besides_putHeld _ _ _) (not_same_of_singular hdb hsingular hb hbm)
      · obtain ⟨-, -, -, hcontainer⟩ := hrepoints.at_top ht
        simp [hc] at hcontainer
    | @extension e keys held inner he hc hext =>
      rw [Target.declareIn, hext]
      refine iff_of_true (declare_keepsLists he (besides_putHeld _ _ _)) fun hrepoints => ?_
      obtain ⟨-, -, -, hcontainer⟩ := hrepoints.at_top ht
      simp [hc] at hcontainer

end

/-- An addition at a path that succeeds leaves every element of every list at its index, with the
immutable values that it had assigned, exactly when it repoints none of the elements that its filter
selects. -/
theorem Operation.add_keepsImmutable {kind : Kind} {path : String} {value resource v : Json}
    (hvalue : value.isNull = false)
    (h : (Operation.add (some path) value).apply .standard kind resource = .ok v) :
    resource.KeepsImmutable kind v ↔
      ∀ t ∈ (resolveText .standard kind path resource).toOption, ¬t.Repoints value resource := by
  obtain ⟨-, -, h⟩ := bind_eq_ok.mp h
  obtain ⟨t, ht, h⟩ := bind_eq_ok.mp h
  rw [ht, show (Except.ok t : Except PatchFault Target).toOption = some t from rfl]
  simp only [Option.mem_some_iff, forall_eq']
  rw [hvalue, if_neg Bool.false_ne_true] at h
  cases resource with
  | obj root => exact Target.add_keepsImmutable_iff (resolveText_resolved ht) h
  | _ =>
    refine iff_of_true (fun key a items _ _ hi => ?_) ?_
    · simp [Json.get?, Json.members?] at hi
    · rintro ⟨a, -, indices, -, -, incoming, -, i, -, w, hw, -⟩
      simp [Json.root, Json.members?, listAt, find?, key?, keys, get?] at hw

/-- A group of one member. -/
def jimAlone : Json :=
  .obj [("displayName", .str "t"),
    ("members", .arr [.obj [("display", .str "Jim"), ("value", .str "u1")]])]

theorem add_keepsImmutable_type : Json.isNull (.obj [("type", .str "User"), ("value", .str "u1")]) =
      false ∧
    ∃ v, (Operation.add (some "members[display eq \"Jim\"]")
        (.obj [("type", .str "User"), ("value", .str "u1")])).apply .standard .group jimAlone =
          .ok v ∧
      jimAlone.KeepsImmutable .group v := by
  obtain ⟨v, hv⟩ := exists_ok (show ((Operation.add (some "members[display eq \"Jim\"]")
    (.obj [("type", .str "User"), ("value", .str "u1")])).apply .standard .group
      jimAlone).toBool = true by decide +kernel)
  refine ⟨rfl, v, hv, (Operation.add_keepsImmutable rfl hv).mpr ?_⟩
  decide +kernel

/-- The member is made another one, though its identifier is immutable. -/
theorem add_repoints_member :
    ∃ v, (Operation.add (some "members[display eq \"Jim\"]")
        (.obj [("value", .str "u2")])).apply .standard .group jimAlone = .ok v ∧
      ¬jimAlone.KeepsImmutable .group v := by
  refine ⟨.obj [("displayName", .str "t"),
    ("members", .arr [.obj [("display", .str "Jim"), ("value", .str "u2")]])],
    by decide +kernel, fun hkeeps => ?_⟩
  have hmembers : ∃ a, Kind.group.attribute? "members" = some a ∧ a.multiValued = true ∧
      ∃ sub ∈ a.subAttributes, sub.mutability = .immutable ∧ sub.name = "value" := by
    decide +kernel
  obtain ⟨a, ha, hm, sub, hsub, him, hname⟩ := hmembers
  obtain ⟨items', hlater, hkept⟩ := hkeeps "members" a
    [.obj [("display", .str "Jim"), ("value", .str "u1")]] ha hm (by decide +kernel)
  have hitems : items' = [.obj [("display", .str "Jim"), ("value", .str "u2")]] := by
    simpa [Json.get?, Json.members?, get?, eq_comm] using hlater
  obtain ⟨w, hw, hsame⟩ := hkept 0 _ rfl
  obtain rfl : .obj [("display", .str "Jim"), ("value", .str "u2")] = w := by
    simpa [hitems] using hw
  have hvalue := hsame sub hsub him (.str "u1") (by rw [hname]; decide +kernel) (by decide +kernel)
  rw [hname] at hvalue
  exact absurd hvalue (by decide +kernel)

end Roster
