import Roster.Proofs.Patch.Marks
import Roster.Proofs.Patch.Names

/-! The mark `primary` of list elements. No list gets a second marked element in a modification
unless an assignment marks several selected elements at once, and then it always does. -/

namespace Roster

/-- Two ways of reading that `primary` is true in an element: in the member of exactly this name, or
in the first one of whatever case. -/
inductive PrimaryReading where
  | exactly
  | anyCase
deriving DecidableEq

namespace PrimaryReading

def held? (reading : PrimaryReading) (ms : Members Json) : Option Json :=
  match reading with
  | .exactly => Members.get? ms "primary"
  | .anyCase => Members.find? ms "primary"

/-- Whether `primary` is true in an element. -/
def marks (reading : PrimaryReading) (v : Json) : Bool :=
  (reading.held? v.root).bind Json.bool? == some true

/-- Read in whatever case, `primary` is not to be held under a second spelling behind the first. -/
def Legible (reading : PrimaryReading) (v : Json) : Prop :=
  reading = .anyCase → Members.SpelledOnce v.root "primary"

instance (reading : PrimaryReading) (v : Json) : Decidable (reading.Legible v) :=
  inferInstanceAs (Decidable (reading = .anyCase → Members.SpelledOnce v.root "primary"))

variable {reading : PrimaryReading}

theorem anyCase_marks (v : Json) : anyCase.marks v = v.isPrimary := by
  cases v <;> rfl

theorem isPrimary_of_marks {v : Json} (h : reading.marks v = true) : v.isPrimary = true := by
  cases reading with
  | anyCase => rwa [anyCase_marks] at h
  | exactly =>
    rw [marks, beq_iff_eq] at h
    obtain ⟨b, hb, htrue⟩ := Option.bind_eq_some_iff.mp h
    rw [← anyCase_marks, marks, beq_iff_eq]
    exact Option.bind_eq_some_iff.mpr ⟨b, Members.find?_of_get? hb, htrue⟩

/-! ### Members put and dropped -/

theorem held?_set_primary (ms : Members Json) (v : Json) :
    reading.held? (Members.set ms "primary" v) = some v := by
  cases reading with
  | exactly => exact Members.get?_set_self ms "primary" v
  | anyCase => exact Members.find?_set_self ms "primary" v

theorem held?_set_other {name : String} (h : sameName "primary" name = false) (ms : Members Json)
    (v : Json) : reading.held? (Members.set ms name v) = reading.held? ms := by
  cases reading with
  | exactly => exact Members.get?_set_of_not_same v h
  | anyCase => exact Members.find?_set_of_not_same v h

theorem held?_remove_other {name : String} (h : sameName "primary" name = false)
    (ms : Members Json) : reading.held? (Members.remove ms name) = reading.held? ms := by
  cases reading with
  | exactly => exact Members.get?_remove_of_not_same h
  | anyCase => exact Members.find?_remove_of_not_same h

theorem held?_remove_primary {v : Json} (h : reading.Legible v) :
    reading.held? (Members.remove v.root "primary") = none := by
  cases reading with
  | exactly => exact Members.get?_remove_self v.root "primary"
  | anyCase => exact (h rfl).find?_remove

/-- Members in order, with `primary` in its one spelling, replace what is held of `primary` or
leave it. -/
theorem held?_setAll {incoming : Members Json} (hs : Members.Sorted incoming)
    (hspell : ∀ k ∈ Members.keys incoming, sameName "primary" k = true → k = "primary")
    (ms : Members Json) :
    reading.held? (Members.setAll ms incoming) =
      (Members.get? incoming "primary").or (reading.held? ms) :=
  Members.look_setAll reading.held? held?_set_primary held?_set_other hs hspell ms

end PrimaryReading

/-! ### Elements under edits -/

section

variable {reading : PrimaryReading} {a sub : Attribute} {v w x new : Json} {incoming : Members Json}

/-- Checked members hold `primary` under this very name. -/
theorem CheckedObject.spells_primary (hspell : a.spellsPrimary = true)
    (h : CheckedObject a.subAttributes incoming) :
    ∀ k ∈ Members.keys incoming, sameName "primary" k = true → k = "primary" := by
  intro k hk hs
  obtain ⟨m, hm, rfl⟩ := List.mem_map.mp hk
  obtain ⟨sub, hsub, hname, -⟩ := (h.checked m hm).checked
  rw [← hname]
  refine (spellsPrimary_sub hspell (findAttribute?_mem hsub)).1 ?_
  rwa [hname, sameName_comm]

theorem marks_demoted (v : Json) : reading.marks v.demoted = false := by
  rw [Bool.eq_false_iff]
  intro h
  cases v with
  | obj ms =>
    by_cases hp : Json.isPrimary (.obj ms) = true
    · simp only [Json.demoted, hp, ↓reduceIte] at h
      simp [PrimaryReading.marks, Json.root, Json.members?, PrimaryReading.held?_set_primary,
        Json.bool?] at h
    · simp only [Json.demoted, hp, ↓reduceIte, Bool.false_eq_true] at h
      exact hp (PrimaryReading.isPrimary_of_marks h)
  | _ => simpa [Json.demoted, Json.isPrimary, Json.member?, Json.members?] using
      PrimaryReading.isPrimary_of_marks h

/-- An assigned `primary` decides the mark, and any other sub-attribute leaves it. -/
theorem marks_setSub (hspell : a.spellsPrimary = true) (hd : Defined a.subAttributes sub)
    (h : setSub sub new v = .ok w) :
    reading.marks w = if sub.name = "primary" then new.bool? == some true else reading.marks v := by
  obtain ⟨members, hm, rfl⟩ := Json.editObject_eq_ok h
  obtain ⟨-, -, hm⟩ := bind_eq_ok.mp hm
  cases hm
  split_ifs with hname
  · simp [PrimaryReading.marks, Json.root, Json.members?, hname,
      PrimaryReading.held?_set_primary]
  · have hother : sameName "primary" sub.name = false := by
      rw [Bool.eq_false_iff, sameName_comm]
      exact fun hs => hname ((spellsPrimary_sub hspell (findAttribute?_mem hd.found)).1 hs)
    simp [PrimaryReading.marks, Json.root, Json.members?, PrimaryReading.held?_set_other hother]

theorem marks_of_marksPrimary (hspell : a.spellsPrimary = true) (hd : Defined a.subAttributes sub)
    (hmark : sub.marksPrimary new = true) (h : setSub sub new v = .ok w) :
    reading.marks w = true := by
  simp only [Attribute.marksPrimary, Bool.and_eq_true, beq_iff_eq] at hmark
  simp [marks_setSub hspell hd h, hmark]

theorem marks_before_setSub (hspell : a.spellsPrimary = true) (hd : Defined a.subAttributes sub)
    (hmark : sub.marksPrimary new = false) (h : setSub sub new v = .ok w)
    (hw : reading.marks w = true) : reading.marks v = true := by
  rw [marks_setSub hspell hd h] at hw
  split_ifs at hw with hname
  · simp [Attribute.marksPrimary, hname, hw] at hmark
  · exact hw

/-- Merged members decide the mark where they hold `primary`, and leave it where they do not. -/
theorem marks_merge (hspell : a.spellsPrimary = true)
    (hi : checkMembers a.name a.subAttributes x = .ok incoming)
    (h : Json.editObject a.name (fun members => .ok (Members.setAll members incoming)) v = .ok w) :
    reading.marks w = (((Members.get? incoming "primary").or (reading.held? v.root)).bind
      Json.bool? == some true) := by
  obtain ⟨members, hm, rfl⟩ := Json.editObject_eq_ok h
  cases hm
  have hobj := checkMembers_checked hi
  rw [PrimaryReading.marks, Json.root, Json.members?, Option.getD_some,
    PrimaryReading.held?_setAll hobj.sorted (hobj.spells_primary hspell)]

/-- Whether checked members are those of a primary element. -/
theorem isPrimary_checked (hspell : a.spellsPrimary = true)
    (hi : checkMembers a.name a.subAttributes x = .ok incoming) :
    Json.isPrimary (.obj incoming) =
      ((Members.get? incoming "primary").bind Json.bool? == some true) := by
  rw [← Members.find?_eq_get? ((checkMembers_checked hi).spells_primary hspell)]
  rfl

theorem marks_of_merged (hspell : a.spellsPrimary = true)
    (hi : checkMembers a.name a.subAttributes x = .ok incoming)
    (hp : Json.isPrimary (.obj incoming) = true)
    (h : Json.editObject a.name (fun members => .ok (Members.setAll members incoming)) v = .ok w) :
    reading.marks w = true := by
  rw [isPrimary_checked hspell hi] at hp
  rw [marks_merge hspell hi h]
  cases hg : Members.get? incoming "primary" <;> simp_all

theorem marks_before_merge (hspell : a.spellsPrimary = true)
    (hi : checkMembers a.name a.subAttributes x = .ok incoming)
    (hp : Json.isPrimary (.obj incoming) = false)
    (h : Json.editObject a.name (fun members => .ok (Members.setAll members incoming)) v = .ok w)
    (hw : reading.marks w = true) : reading.marks v = true := by
  rw [isPrimary_checked hspell hi] at hp
  rw [marks_merge hspell hi h] at hw
  cases hg : Members.get? incoming "primary" with
  | none => simpa [hg, PrimaryReading.marks] using hw
  | some u => simp_all

/-- Dropping `primary` unmarks an element, if no second spelling shows up behind it. -/
theorem marks_before_dropSub (hspell : a.spellsPrimary = true) (hd : Defined a.subAttributes sub)
    (hl : reading.Legible v) (h : dropSub sub v = .ok w) (hw : reading.marks w = true) :
    reading.marks v = true := by
  cases v with
  | obj ms =>
    rw [dropSub, guard_eq_ok] at h
    cases h.2
    cases hs : sameName "primary" sub.name with
    | true =>
      have hname : sub.name = "primary" := by
        refine (spellsPrimary_sub hspell (findAttribute?_mem hd.found)).1 ?_
        rwa [sameName_comm]
      have hnone := PrimaryReading.held?_remove_primary hl
      simp only [Json.root, Json.members?, Option.getD_some] at hnone
      simp [PrimaryReading.marks, Json.root, Json.members?, hname, hnone] at hw
    | false =>
      simpa [PrimaryReading.marks, Json.root, Json.members?,
        PrimaryReading.held?_remove_other hs] using hw
  | _ =>
    cases h
    exact hw

/-- No edit of an element adds a second spelling of `primary`. -/
theorem legible_rule (reading : PrimaryReading) (hspell : a.spellsPrimary = true) :
    ElementRule a reading.Legible where
  checked {x v} h hr := by
    have hc := checkSingle_checked _ h
    cases v with
    | obj ms =>
      obtain ⟨-, hobj⟩ := checkSingle_obj_self_iff.mp hc
      have hname := hobj.spells_primary hspell
      exact fun k hk l hl hks hls => (hname k hk hks).trans (hname l hl hls).symm
    | _ => simp [Members.SpelledOnce, Json.root, Json.members?, Members.keys]
  demoted {v} h hr := by
    cases v with
    | obj ms =>
      simp only [Json.demoted]
      split_ifs
      · exact (h hr).set fun _ => rfl
      · exact h hr
    | _ => exact h hr
  assign {v w x new sub} h hd _ hw hr := by
    obtain ⟨members, hm, rfl⟩ := Json.editObject_eq_ok hw
    obtain ⟨-, -, hm⟩ := bind_eq_ok.mp hm
    cases hm
    refine (h hr).set fun hs => (spellsPrimary_sub hspell (findAttribute?_mem hd.found)).1 ?_
    rwa [sameName_comm]
  merge {v w x incoming} h hi hw hr := by
    obtain ⟨members, hm, rfl⟩ := Json.editObject_eq_ok hw
    cases hm
    have hname := (checkMembers_checked hi).spells_primary hspell
    have step (incoming : Members Json)
        (hname : ∀ k ∈ Members.keys incoming, sameName "primary" k = true → k = "primary")
        (ms : Members Json) (hms : Members.SpelledOnce ms "primary") :
        Members.SpelledOnce (Members.setAll ms incoming) "primary" := by
      induction incoming generalizing ms with
      | nil => exact hms
      | cons m rest ih =>
        exact ih (fun k hk => hname k (List.mem_cons_of_mem _ hk)) _
          (hms.set (hname m.1 List.mem_cons_self))
    exact step incoming hname _ (h hr)
  drop {v w sub} h _ hw hr := by
    cases v with
    | obj ms =>
      rw [dropSub, guard_eq_ok] at hw
      cases hw.2
      exact (h hr).remove _
    | _ =>
      cases hw
      exact h hr

end

/-! ### Lists under edits -/

/-- At most one element of a list is marked as primary. -/
def PrimaryReading.OneOf (reading : PrimaryReading) (items : List Json) : Prop :=
  items.countP reading.marks ≤ 1 ∧ ∀ v ∈ items, reading.Legible v

instance (reading : PrimaryReading) (items : List Json) : Decidable (reading.OneOf items) :=
  inferInstanceAs (Decidable (_ ∧ _))

/-- The edits of a list leave at most one marked element, where they mark at most one. -/
theorem onePrimary_list (reading : PrimaryReading) {a : Attribute}
    (hspell : a.spellsPrimary = true) : ListRule a True reading.OneOf := by
  have hlegible := (legible_rule reading hspell).listRule True
  have sublist {items items' : List Json} (h : items.countP reading.marks ≤ 1)
      (hs : items'.Sublist items) : items'.countP reading.marks ≤ 1 := (hs.countP_le).trans h
  exact {
    empty := ⟨by simp, hlegible.empty⟩
    append := fun {items x v} h hv => by
      refine ⟨?_, hlegible.append h.2 hv⟩
      unfold appendElement
      split_ifs with hany hp
      · exact h.1
      · -- a new primary element demotes all others
        have hnone : (items.map Json.demoted).countP reading.marks = 0 := by
          simp [List.countP_eq_zero, marks_demoted]
        rw [List.countP_append, hnone, Nat.zero_add]
        exact (List.countP_le_length).trans (by simp)
      · have hnone : reading.marks v = false := by
          rw [Bool.eq_false_iff]
          exact fun hm => hp (PrimaryReading.isPrimary_of_marks hm)
        simpa [List.countP_append, hnone] using h.1
    whole := fun {items x} hi hone => by
      refine ⟨?_, hlegible.whole hi hone⟩
      rw [← List.countP_eq_length_filter] at hone
      exact (List.countP_mono_left fun v _ => PrimaryReading.isPrimary_of_marks).trans hone
    assign := fun {items items' selected sub x new} h hd hnew hone hedit => by
      refine ⟨?_, hlegible.assign h.2 hd hnew hone hedit⟩
      split_ifs at hedit with hmark
      · exact countP_editSelected_le_one marks_demoted (hone trivial hmark) hedit
      · refine (countP_editSelected_le (E := fun _ => True) (fun v w _ hw => ?_) (by simp)
          hedit).trans h.1
        exact marks_before_setSub hspell hd (by simpa using hmark) hw
    merge := fun {items items' selected x incoming} h hi hone hedit => by
      refine ⟨?_, hlegible.merge h.2 hi hone hedit⟩
      split_ifs at hedit with hp
      · exact countP_editSelected_le_one marks_demoted (hone trivial hp) hedit
      · refine (countP_editSelected_le (E := fun _ => True) (fun v w _ hw => ?_) (by simp)
          hedit).trans h.1
        exact marks_before_merge hspell hi (by simpa using hp) hw
    renew := fun {items items' selected x new} h hnew hedit => by
      refine ⟨?_, hlegible.renew h.2 hnew hedit⟩
      split_ifs at hedit with hp
      · -- several elements may be replaced, but then by one and the same value
        refine countP_dropRepeats_le_one new fun v hv hm => ?_
        obtain ⟨i, hi⟩ := List.mem_iff_getElem?.mp hv
        obtain ⟨-, u, hu⟩ := selected_of_marked marks_demoted hedit hi hm
        exact (Except.ok.inj hu).symm
      · refine sublist ?_ (dropRepeats_sublist items')
        refine (countP_editSelected_le (E := fun _ => True) (fun v w _ hw hm => ?_) (by simp)
          hedit).trans h.1
        cases hw
        exact absurd (PrimaryReading.isPrimary_of_marks hm) hp
    part := fun {items items'} h hs => ⟨sublist h.1 hs, hlegible.part h.2 hs⟩
    drop := fun {items items' selected sub} h hd hedit => by
      refine ⟨?_, hlegible.drop h.2 hd hedit⟩
      exact (countP_editSelected_le (fun v w hl hw => marks_before_dropSub hspell hd hl hw) h.2
        hedit).trans h.1 }

/-! ### Resources under edits -/

/-- The list held for a list attribute has at most one element marked as primary. -/
def PrimaryReading.OneIn (reading : PrimaryReading) (a : Attribute) (v : Json) : Prop :=
  a.multiValued = true → ∀ items ∈ v.items?, reading.OneOf items

instance (reading : PrimaryReading) (a : Attribute) (v : Json) : Decidable (reading.OneIn a v) :=
  inferInstanceAs (Decidable (a.multiValued = true → ∀ items ∈ v.items?, reading.OneOf items))

/-- Every list of values in a resource has at most one element marked as primary. -/
def Json.OnePrimary (reading : PrimaryReading) (kind : Kind) (resource : Json) : Prop :=
  ∀ m ∈ resource.root, ∀ a ∈ kind.attribute? m.1, reading.OneIn a m.2

instance (reading : PrimaryReading) (kind : Kind) (resource : Json) :
    Decidable (resource.OnePrimary reading kind) :=
  inferInstanceAs
    (Decidable (∀ m ∈ resource.root, ∀ a ∈ kind.attribute? m.1, reading.OneIn a m.2))

/-- The standard registry has one extension. -/
theorem registered_standard {kind : Kind} {s : Schema} (h : Registered .standard kind s) :
    s = Schema.enterpriseUser := by
  obtain ⟨urn, hs, -⟩ := h
  obtain ⟨e, he, rfl⟩ := Option.map_eq_some_iff.mp hs
  obtain rfl : e = ⟨.user, Schema.enterpriseUser, false⟩ := by
    simpa [Registry.standard, Registry.core, Registry.extend] using List.mem_of_find?_eq_some he
  rfl

/-- The attributes below the top of a resource are singular under the standard registry. -/
theorem innerOf_standard_singular {kind : Kind} {definitions : List Attribute}
    (h : InnerOf .standard kind definitions) : ∀ a ∈ definitions, a.multiValued = false ∧
      ∀ b ∈ a.subAttributes, b.multiValued = false ∧ b.subAttributes.isEmpty = true := by
  induction h with
  | nested hd hs _ =>
    have htop : ∀ a ∈ kind.attributes, a.multiValued = false → ∀ b ∈ a.subAttributes,
        b.multiValued = false ∧
          ∀ c ∈ b.subAttributes, c.multiValued = false ∧ c.subAttributes.isEmpty = true := by
      cases kind <;> decide +kernel
    exact htop _ (findAttribute?_mem hd.found) hs
  | extension hs =>
    rw [registered_standard hs]
    decide +kernel
  | deeper _ hd _ _ ih =>
    intro b hb
    obtain ⟨hs, hempty⟩ := (ih _ (findAttribute?_mem hd.found)).2 b hb
    simp [hs, List.isEmpty_iff.mp hempty]

theorem oneIn_rule (reading : PrimaryReading) {a : Attribute}
    (hspell : a.multiValued = true → a.spellsPrimary = true) :
    ValueRule a True (reading.OneIn a) where
  listed hm := by
    have hiff (items : List Json) : reading.OneIn a (.arr items) ↔ reading.OneOf items := by
      simp [PrimaryReading.OneIn, hm, Json.items?]
    simpa only [hiff] using onePrimary_list reading (hspell hm)
  checked hm _ := fun h => absurd h (by simp [hm])
  merged hm _ _ _ := fun h => absurd h (by simp [hm])

theorem onePrimary_rule (reading : PrimaryReading) (kind : Kind) :
    PatchRule .standard kind True reading.OneIn (fun _ _ => True) (fun _ _ => True)
      fun ms => ∀ m ∈ ms, ∀ a ∈ kind.attribute? m.1, reading.OneIn a m.2 where
  root := by
    refine .ofMembers (fun hd => oneIn_rule reading fun _ =>
      attributes_spellPrimary kind _ (findAttribute?_mem hd.found)) fun {a key v} hd hs => ?_
    have hfound : kind.attribute? key = some a := by
      rw [Kind.attribute?, ← findAttribute?_congr _ hs, hd.found]
    simp [hfound]
  inner _ := anyHolder_rule _ True
  empty _ := trivial
  object _ hm _ _ := by simp [PrimaryReading.OneIn, hm]
  innerObject _ _ _ := Iff.rfl
  checked _ _ := trivial
  merged _ _ _ := trivial
  extension _ _ _ := trivial
  setExtension h _ _ := Members.forall_set h (by simp [PrimaryReading.OneIn, Json.items?])
  putExtension h _ _ :=
    Members.forall_putHeld h fun _ _ => by simp [PrimaryReading.OneIn, Json.items?]
  removeExtension h _ := Members.forall_remove _ h
  schemas h := by
    refine Members.forall_putHeld h fun key hk a ha => ?_
    have hsame := sameName_trans (findAttribute?_sameName ha) (sameName_comm _ _ ▸ hk)
    simp [schemas_not_attribute kind a (findAttribute?_mem ha)] at hsame

/-! ### Marking several elements -/

theorem indices_bounds {c : Condition} {start : Nat} {items : List Json} :
    ∀ i ∈ c.indices start items, start ≤ i ∧ i < start + items.length := by
  induction items generalizing start with
  | nil => simp [Condition.indices]
  | cons v rest ih =>
    have later : ∀ i ∈ c.indices (start + 1) rest, start ≤ i ∧ i < start + (v :: rest).length := by
      intro i hi
      obtain ⟨hlow, hhigh⟩ := ih i hi
      rw [List.length_cons]
      omega
    intro i hi
    rw [Condition.indices] at hi
    split_ifs at hi
    · rcases List.mem_cons.mp hi with rfl | hi
      · exact ⟨le_refl _, by simp⟩
      · exact later i hi
    · exact later i hi

theorem indices_increasing (c : Condition) (start : Nat) (items : List Json) :
    (c.indices start items).Pairwise (· < ·) := by
  induction items generalizing start with
  | nil => exact List.Pairwise.nil
  | cons v rest ih =>
    rw [Condition.indices]
    split_ifs
    · exact List.pairwise_cons.mpr ⟨fun i hi => (indices_bounds i hi).1, ih _⟩
    · exact ih _

/-- Null is no value of an attribute. -/
theorem checkSingle_null (a : Attribute) (w : Json) : checkSingle a .null ≠ .ok w := by
  intro h
  rw [checkSingle_of_not_object rfl, guard_eq_ok, checkScalar_eq_ok] at h
  cases ht : a.type <;> simp [ht, AttributeType.admit?, Json.string?, Json.number?] at h

theorem checkValue_null (a : Attribute) (w : Json) : checkValue a .null ≠ .ok w := by
  intro h
  unfold checkValue at h
  split_ifs at h
  · obtain ⟨items, hi, -⟩ := map_eq_ok.mp h
    obtain ⟨v, hv, -⟩ := bind_eq_ok.mp hi
    exact checkSingle_null a v hv
  · exact checkSingle_null a w h

theorem Target.MarksSeveral.not_null {t : Target} {a : Attribute} {how : Assignment} {value : Json}
    (h : t.MarksSeveral a how value) : value.isNull = false := by
  obtain ⟨indices, -, -, ⟨sub, new, -, hnew, -⟩ | ⟨-, -, incoming, hi, -⟩⟩ := h
  · cases value with
    | null => exact absurd hnew (checkValue_null sub new)
    | _ => rfl
  · cases value with
    | null => simp [checkMembers] at hi
    | _ => rfl

/-- An edit of the list held for `a` marks each of the elements at some indices. -/
def MarksEach (reading : PrimaryReading) (a : Attribute) (indices : List Nat)
    (holder holder' : Members Json) : Prop :=
  ∃ f items, (∀ v w, f v = .ok w → reading.marks w = true) ∧
    editSelected indices.contains f 0
      (demoteOthers indices.contains (Members.listAt holder a.name)) = .ok items ∧
    Members.putHeld holder a.name (.arr items) = holder'

section

variable {reading : PrimaryReading} {a : Attribute} {t : Target} {value resource : Json}
  {definitions : List Attribute} {holder holder' : Members Json} {indices : List Nat}

theorem setSelected_marksEach (hspell : a.spellsPrimary = true) {sub : Attribute}
    (hd : Defined a.subAttributes sub) {new : Json} (hnew : checkValue sub value = .ok new)
    (hmark : sub.marksPrimary new = true)
    (h : setSelected a sub indices value holder = .ok holder') :
    MarksEach reading a indices holder holder' := by
  obtain ⟨new', hnew', h⟩ := bind_eq_ok.mp h
  obtain rfl : new = new' := Except.ok.inj (hnew.symm.trans hnew')
  obtain ⟨items, hitems, rfl⟩ := Members.editList_eq_ok h
  simp only [hmark, ↓reduceIte] at hitems
  exact ⟨_, items, fun v w => marks_of_marksPrimary hspell hd hmark, hitems, rfl⟩

theorem addIn_marksEach (hspell : a.spellsPrimary = true) (ht : t.Within resource definitions a)
    (hm : t.MarksSeveral a .add value) (h : t.addIn a value holder = .ok holder') :
    ∃ indices, t.selection = .elements indices ∧ 2 ≤ indices.length ∧
      MarksEach reading a indices holder holder' := by
  obtain ⟨indices, hsel, htwo, hmark⟩ := hm
  refine ⟨indices, hsel, htwo, ?_⟩
  match indices, htwo with
  | i :: j :: rest, _ =>
    rcases hmark with ⟨sub, new, hsub, hnew, hmark⟩ | ⟨-, hsub, incoming, hi, hp⟩
    · simp only [Target.addIn, hsel, hsub] at h
      exact setSelected_marksEach hspell (ht.sub sub hsub) hnew hmark h
    · simp only [Target.addIn, hsel, hsub] at h
      obtain ⟨incoming', hi', h⟩ := bind_eq_ok.mp h
      obtain rfl : incoming = incoming' := Except.ok.inj (hi.symm.trans hi')
      obtain ⟨items, hitems, rfl⟩ := Members.editList_eq_ok h
      simp only [hp, ↓reduceIte] at hitems
      exact ⟨_, items, fun v w => marks_of_merged hspell hi hp, hitems, rfl⟩

theorem replaceIn_marksEach (hspell : a.spellsPrimary = true)
    (ht : t.Within resource definitions a) (hm : t.MarksSeveral a .replace value)
    (h : t.replaceIn a value holder = .ok holder') :
    ∃ indices, t.selection = .elements indices ∧ 2 ≤ indices.length ∧
      MarksEach reading a indices holder holder' := by
  obtain ⟨indices, hsel, htwo, ⟨sub, new, hsub, hnew, hmark⟩ | ⟨hadd, -⟩⟩ := hm
  · refine ⟨indices, hsel, htwo, ?_⟩
    simp only [Target.replaceIn, hsel, hsub] at h
    exact setSelected_marksEach hspell (ht.sub sub hsub) hnew hmark h
  · cases hadd

/-- A list of which a path selects elements stands at the top of the resource. -/
theorem selected_at_top {kind : Kind} (ht : t.Resolved .standard kind resource)
    (hd : t.definition = some a) (hsel : t.selection = .elements indices) :
    a.multiValued = true ∧ t.container = [] ∧ t.extension = none ∧
      t.Within resource kind.attributes a := by
  -- objects below the top have singular attributes
  have below {definitions inner : List Attribute} {keys : List String}
      (hl : LeadsTo definitions keys inner) (hin : InnerOf .standard kind definitions) :
      ¬t.Within resource inner a := by
    intro hw
    induction hl with
    | here definitions =>
      have hs := (innerOf_standard_singular hin a (findAttribute?_mem hw.defined.found)).1
      simp [hw.listed_of_elements hsel] at hs
    | into hd hs hc _ ih => exact ih (.deeper hin hd hs hc) hw
  cases ht with
  | extension s urn _ _ hnone => simp [hnone] at hd
  | core inner b hext hl hw =>
    obtain rfl : b = a := Option.some.inj (hw.definition.symm.trans hd)
    generalize hk : t.container = keys at hl
    cases hl with
    | here => exact ⟨hw.listed_of_elements hsel, rfl, hext, hw⟩
    | into hdb hs hc hl => exact absurd hw (below hl (.nested hdb hs hc))
  | extended s urn keys inner b hs hurn _ _ hl hw =>
    obtain rfl : b = a := Option.some.inj (hw.definition.symm.trans hd)
    exact absurd hw (below hl (.extension ⟨urn, hs, hurn⟩))

/-- Marking two indices or more of a list at the top leaves it with several marked elements. -/
theorem MarksEach.not_onePrimary {kind : Kind} (ht : t.Within resource kind.attributes a)
    (hm : a.multiValued = true) (hc : t.container = []) (hsel : t.selection = .elements indices)
    (htwo : 2 ≤ indices.length) {root' : Members Json}
    (h : MarksEach reading a indices resource.root root') :
    ¬Json.OnePrimary reading kind (.obj root') := by
  obtain ⟨f, items, hf, hedit, rfl⟩ := h
  obtain ⟨c, hindices⟩ := ht.selected indices hsel
  have hheld : ((resource.follow? t.container a.name).bind Json.items?).getD [] =
      Members.listAt resource.root a.name := by
    rw [hc]
    cases resource <;> rfl
  rw [hheld] at hindices
  match indices, htwo with
  | i :: j :: rest, _ =>
    -- two of the indices are enough, as they are different and inside the list
    have hlt : i < j := by
      have hincreasing := indices_increasing c 0 (Members.listAt resource.root a.name)
      rw [← hindices] at hincreasing
      exact (List.pairwise_cons.mp hincreasing).1 j (by simp)
    have inside {k : Nat} (hk : k ∈ i :: j :: rest) :
        k < (demoteOthers (i :: j :: rest).contains
          (Members.listAt resource.root a.name)).length := by
      rw [hindices] at hk
      simpa [demoteOthers] using (indices_bounds k hk).2
    have hmany := two_le_countP_editSelected hf hlt.ne (inside (by simp)) (inside (by simp))
      (by simp) (by simp) hedit
    obtain ⟨key, hkey, hmem⟩ := Members.exists_mem_putHeld resource.root a.name (.arr items)
    have hfound : kind.attribute? key = some a := by
      rw [Kind.attribute?, ← findAttribute?_congr _ hkey, ht.defined.found]
    exact fun hone => hmany (hone _ hmem a hfound hm items rfl).1

end

/-- A step that marks several elements at once leaves a list with several marked ones. -/
theorem PatchStep.not_onePrimary {reading : PrimaryReading} {kind : Kind} {s : PatchStep}
    {resource resource' : Json} (hm : s.MarksSeveral .standard kind resource)
    (h : s.apply .standard kind resource = .ok resource') :
    ¬resource'.OnePrimary reading kind := by
  cases s with
  | remove path value => exact hm.elim
  | assign how path value =>
    obtain ⟨t, a, ht, hd, hmark⟩ := hm
    obtain ⟨t', ht', h⟩ := bind_eq_ok.mp h
    obtain rfl : t = t' := Except.ok.inj (ht.symm.trans ht')
    obtain ⟨indices, hsel, htwo, -⟩ := id hmark
    obtain ⟨hmulti, hc, hext, hw⟩ := selected_at_top (resolveText_resolved ht) hd hsel
    have hspell := attributes_spellPrimary kind a (findAttribute?_mem hw.defined.found)
    -- the edit is made at the top of the resource, and declares no extension
    have edited {f : Edit (Members Json)} {v : Json} (hv : resource.editAt t.container f = .ok v) :
        ∃ root', v = .obj root' ∧ f resource.root = .ok root' := by
      rw [hc] at hv
      obtain ⟨root', hr, rfl⟩ := Json.editObject_eq_ok hv
      exact ⟨root', rfl, hr⟩
    have declared (v : Json) : t.declareIn v = v := by simp [Target.declareIn, hext]
    have marked {root' : Members Json} (hr : ∃ indices, t.selection = .elements indices ∧
        2 ≤ indices.length ∧ MarksEach reading a indices resource.root root') :
        ¬Json.OnePrimary reading kind (.obj root') := by
      obtain ⟨indices, hsel, htwo, hr⟩ := hr
      exact hr.not_onePrimary hw hmulti hc hsel htwo
    simp only [hmark.not_null, Bool.false_eq_true, ↓reduceIte] at h
    cases how with
    | add =>
      cases Target.add_eq_ok h with
      | whole hwhole => cases hd.symm.trans hwhole
      | part hpart hv =>
        cases hd.symm.trans hpart
        obtain ⟨root', rfl, hr⟩ := edited hv
        rw [declared]
        exact marked (addIn_marksEach hspell hw hmark hr)
    | replace =>
      cases Target.replace_eq_ok h with
      | whole hwhole => cases hd.symm.trans hwhole
      | part hpart _ hv =>
        cases hd.symm.trans hpart
        obtain ⟨root', rfl, hr⟩ := edited hv
        rw [declared]
        exact marked (replaceIn_marksEach hspell hw hmark hr)

/-! ### Modifications -/

/-- A step that marks at most one of the selected elements keeps every mark unique. -/
theorem PatchStep.apply_onePrimary {reading : PrimaryReading} {kind : Kind} {s : PatchStep}
    {resource resource' : Json} (hone : ¬s.MarksSeveral .standard kind resource)
    (hp : resource.OnePrimary reading kind) (h : s.apply .standard kind resource = .ok resource') :
    resource'.OnePrimary reading kind :=
  (onePrimary_rule reading kind).step (fun _ => hone) hp h

theorem PatchStep.run_onePrimary {reading : PrimaryReading} {kind : Kind} {steps : List PatchStep}
    {resource resource' : Json} (hp : resource.OnePrimary reading kind)
    (hnever : NeverMarkSeveral .standard kind steps resource)
    (h : run .standard kind steps resource = .ok resource') :
    resource'.OnePrimary reading kind :=
  run_keeps_of_never (fun _ _ _ hp hone hs => apply_onePrimary hone hp hs) hp
    (neverMarkSeveral_iff.mp hnever) h

/-- Marks are unique all along a run exactly when no step of it marks several elements. -/
theorem PatchStep.throughout_onePrimary {reading : PrimaryReading} {kind : Kind}
    {steps : List PatchStep} {resource resource' : Json} (hp : resource.OnePrimary reading kind)
    (h : run .standard kind steps resource = .ok resource') :
    Throughout .standard kind (Json.OnePrimary reading kind) steps resource ↔
      NeverMarkSeveral .standard kind steps resource := by
  rw [neverMarkSeveral_iff]
  exact throughout_iff_never (fun _ _ _ hp hone hs => apply_onePrimary hone hp hs)
    (fun _ _ _ hm hs => not_onePrimary hm hs) hp h

/-- Operations that succeed leave at most one marked element in every list when none of their steps
marks several elements at once, and just then the marks are unique all along. -/
theorem Operation.applyAll_onePrimary {reading : PrimaryReading} {kind : Kind} {resource v : Json}
    {ops : List Operation} (hp : resource.OnePrimary reading kind)
    (happly : Operation.applyAll .standard kind ops resource = .ok v) :
    (PatchStep.NeverMarkSeveral .standard kind (ops.flatMap (Operation.steps kind)) resource →
      v.OnePrimary reading kind) ∧
    (PatchStep.Throughout .standard kind (Json.OnePrimary reading kind)
        (ops.flatMap (Operation.steps kind)) resource ↔
      PatchStep.NeverMarkSeveral .standard kind (ops.flatMap (Operation.steps kind)) resource) := by
  have hrun := Operation.applyAll_run happly
  exact ⟨fun hnever => PatchStep.run_onePrimary hp hnever hrun,
    PatchStep.throughout_onePrimary hp hrun⟩

/-- A user with two addresses for work, neither of which is primary. -/
def twoMails : Json :=
  .obj [("emails", .arr [.obj [("type", .str "work"), ("value", .str "a")],
      .obj [("type", .str "work"), ("value", .str "b")]]),
    ("userName", .str "bj")]

/-- One address is marked, and then the other in its place. -/
def markInTurn : List Operation :=
  [.add (some "emails[value eq \"a\"].primary") (.bool true),
    .replace (some "emails[value eq \"b\"]")
      (.obj [("primary", .bool true), ("value", .str "b")])]

theorem applyAll_onePrimary_inTurn : twoMails.OnePrimary .anyCase .user ∧
    PatchStep.NeverMarkSeveral .standard .user (markInTurn.flatMap (Operation.steps .user))
      twoMails ∧
    ∃ v, Operation.applyAll .standard .user markInTurn twoMails = .ok v ∧
      v.OnePrimary .anyCase .user := by
  have hp : twoMails.OnePrimary .anyCase .user := by decide +kernel
  obtain ⟨v, hv⟩ := exists_ok (show
    (Operation.applyAll .standard .user markInTurn twoMails).toBool = true by decide +kernel)
  obtain ⟨hunique, hiff⟩ := Operation.applyAll_onePrimary hp hv
  have hnever := hiff.mp (by decide +kernel)
  exact ⟨hp, hnever, v, hv, hunique hnever⟩

/-- Both addresses are marked at once, though the marks were unique in either reading before. -/
theorem applyAll_marks_both : (∀ reading, twoMails.OnePrimary reading .user) ∧
    ∃ v, Operation.applyAll .standard .user
        [.replace (some "emails[type eq \"work\"].primary") (.bool true)] twoMails = .ok v ∧
      ∀ reading, ¬v.OnePrimary reading .user := by
  refine ⟨fun reading => by cases reading <;> decide +kernel,
    .obj [("emails", .arr [
        .obj [("primary", .bool true), ("type", .str "work"), ("value", .str "a")],
        .obj [("primary", .bool true), ("type", .str "work"), ("value", .str "b")]]),
      ("userName", .str "bj")], by decide +kernel, fun reading => ?_⟩
  cases reading <;> decide +kernel

end Roster
