import Roster.Proofs.Patch.Immutable

/-! An edit that is made again. Edits of an element are settled after the first time, and so is the
edit of a list where its condition selects no other elements the second time. It may do so when the
edit marks an element as primary, as that demotes the others. -/

namespace Roster

open Members

/-! ### Elements -/

section

variable {a sub : Attribute} {v w new : Json} {c : Condition} {e : Edit Json} {marks : Bool}
  {items items' : List Json}

theorem isPrimary_demoted (v : Json) : v.demoted.isPrimary = false := by
  rw [← PrimaryReading.anyCase_marks]
  exact marks_demoted v

theorem demoted_eq_self_iff : v.demoted = v ↔ v.isPrimary = false := by
  constructor
  · intro h
    rw [← h]
    exact isPrimary_demoted v
  · intro h
    cases v with
    | obj ms => simp [Json.demoted, h]
    | _ => rfl

/-- An edit that leaves alone what it has made. -/
def Settling (e : Edit Json) : Prop :=
  ∀ v w, e v = .ok w → e w = .ok w

theorem setSub_settling (sub : Attribute) (new : Json) : Settling (setSub sub new) := by
  intro v w h
  obtain ⟨members, hmembers, rfl⟩ := Json.editObject_eq_ok h
  obtain ⟨_, -, hmembers⟩ := bind_eq_ok.mp hmembers
  cases hmembers
  have hcheck : checkImmutable sub (find? (set v.root sub.name new) sub.name) new = .ok () := by
    simp [checkImmutable, find?_set_self, Json.same_refl]
  simp [setSub, Json.editObject, hcheck, set_set, bind, Except.bind, Except.map]

/-- What is dropped of an element has no second spelling behind it, and is dropped once. -/
theorem dropSub_dropSub (hone : SpelledOnce v.root sub.name) (h : dropSub sub v = .ok w) :
    dropSub sub w = .ok w := by
  cases v with
  | obj ms =>
    rw [dropSub, guard_eq_ok] at h
    obtain ⟨-, h⟩ := h
    cases h
    have hnone : find? (remove ms sub.name) sub.name = none := SpelledOnce.find?_remove hone
    simp [dropSub, hnone, remove_of_find?_eq_none hnone]
  | _ =>
    cases h
    rfl

/-! ### Lists -/

theorem mem_indices {start i : Nat} :
    i ∈ c.indices start items ↔ ∃ j v, i = start + j ∧ items[j]? = some v ∧ c.holds v = true := by
  induction items generalizing start with
  | nil => simp [Condition.indices]
  | cons head rest ih =>
    have hrest : i ∈ c.indices (start + 1) rest ↔
        ∃ j v, i = start + (j + 1) ∧ (head :: rest)[j + 1]? = some v ∧ c.holds v = true := by
      rw [ih]
      simp only [List.getElem?_cons_succ, Nat.add_assoc, Nat.add_comm 1]
    rw [Condition.indices]
    constructor
    · intro hi
      split_ifs at hi with hhead
      · rcases List.mem_cons.mp hi with rfl | hi
        · exact ⟨0, head, rfl, rfl, hhead⟩
        · obtain ⟨j, v, hj⟩ := hrest.mp hi
          exact ⟨j + 1, v, hj⟩
      · obtain ⟨j, v, hj⟩ := hrest.mp hi
        exact ⟨j + 1, v, hj⟩
    · rintro ⟨j, v, rfl, hv, hholds⟩
      cases j with
      | zero =>
        obtain rfl : head = v := by simpa using hv
        simp [hholds]
      | succ j =>
        have hi := hrest.mpr ⟨j, v, rfl, hv, hholds⟩
        split_ifs
        · exact List.mem_cons_of_mem _ hi
        · exact hi

theorem contains_indices {i : Nat} (hv : items[i]? = some v) :
    (c.indices 0 items).contains i = c.holds v := by
  rw [Bool.eq_iff_iff, List.contains_iff_mem, mem_indices]
  constructor
  · rintro ⟨j, w, hj, hw, hholds⟩
    obtain rfl : i = j := by omega
    rwa [Option.some.inj (hv.symm.trans hw)]
  · intro hholds
    exact ⟨i, v, by omega, hv, hholds⟩

/-- An edit at some indices leaves a list as it is when it leaves each of these elements so. -/
theorem editSelected_eq_self {selected : Nat → Bool} {start : Nat}
    (h : ∀ (i : Nat) (v : Json), items[i]? = some v → selected (start + i) = true → e v = .ok v) :
    editSelected selected e start items = .ok items := by
  induction items generalizing start with
  | nil => rfl
  | cons v rest ih =>
    have hrest : editSelected selected e (start + 1) rest = .ok rest := by
      refine ih fun i w hw hs => h (i + 1) w (by simpa using hw) ?_
      rwa [Nat.add_assoc, Nat.add_comm 1] at hs
    rw [editSelected, hrest]
    split_ifs with hs
    · rw [h 0 v rfl hs]
      rfl
    · rfl

/-- The edit of a list at the elements of a condition, where a mark demotes the others. -/
def editChosen (c : Condition) (marks : Bool) (e : Edit Json) : Edit (List Json) := fun items =>
  editSelected (c.indices 0 items).contains e 0
    (if marks then demoteOthers (c.indices 0 items).contains items else items)

/-- The edit leaves those elements alone that its condition may select: the primary ones where it
marks, and else those which satisfy the condition. -/
def RestsOn (c : Condition) (marks : Bool) (e : Edit Json) (items : List Json) : Prop :=
  ∀ v ∈ items, (if marks then v.isPrimary = true else c.holds v = true) → e v = .ok v

/-- Elements that are edited once are left alone after that. -/
theorem restsOn_editChosen (he : Settling e) (h : editChosen c marks e items = .ok items') :
    RestsOn c marks e items' := by
  intro w hw hchosen
  obtain ⟨i, hi⟩ := List.mem_iff_getElem?.mp hw
  unfold editChosen at h
  cases marks with
  | true =>
    obtain ⟨-, v, hv⟩ := selected_of_marked isPrimary_demoted h hi hchosen
    exact he v w hv
  | false =>
    obtain ⟨v, hv, hedit⟩ := editSelected_getElem? h hi
    rw [if_neg Bool.false_ne_true] at hv
    rw [Nat.zero_add, contains_indices hv] at hedit
    split_ifs at hedit with hholds
    · exact he v w hedit
    · rw [hedit] at hchosen
      exact absurd hchosen hholds

/-- The edit of a list at rest changes nothing exactly when the elements that it selects are the
primary ones, or it marks none. -/
theorem RestsOn.again (hmarks : marks = true → ∀ v w, e v = .ok w → w.isPrimary = true)
    (h : RestsOn c marks e items) (hagain : editChosen c marks e items = .ok items') :
    items' = items ↔ (marks = true → ∀ v ∈ items, c.holds v = v.isPrimary) := by
  unfold editChosen at hagain
  cases marks with
  | false =>
    have hself : editSelected (c.indices 0 items).contains e 0 items = .ok items := by
      refine editSelected_eq_self fun i v hv hs => ?_
      rw [Nat.zero_add, contains_indices hv] at hs
      exact h v (List.mem_of_getElem? hv) hs
    refine iff_of_true ?_ (by simp)
    exact Except.ok.inj (hagain.symm.trans hself)
  | true =>
    constructor
    · rintro rfl - v hv
      obtain ⟨i, hi⟩ := List.mem_iff_getElem?.mp hv
      obtain ⟨u, hu, hedit⟩ := editSelected_getElem? hagain hi
      rw [if_pos rfl, demoteOthers_getElem? _ hi] at hu
      rw [Nat.zero_add, contains_indices hi] at hedit
      rw [contains_indices hi] at hu
      cases hholds : c.holds v with
      | true => exact (hmarks rfl u v (by simpa [hholds] using hedit)).symm
      | false =>
        -- an element that is passed over is demoted
        have huv : v = u := by simpa [hholds] using hedit
        have hdemoted : v.demoted = u := by simpa [hholds] using hu
        exact (demoted_eq_self_iff.mp (hdemoted.trans huv.symm)).symm
    · intro hprimary
      have hothers : demoteOthers (c.indices 0 items).contains items = items := by
        apply List.ext_getElem?
        intro i
        cases hi : items[i]? with
        | none => simp [demoteOthers, hi]
        | some v =>
          rw [demoteOthers_getElem? _ hi, contains_indices hi]
          have hv := hprimary rfl v (List.mem_of_getElem? hi)
          split_ifs with hholds
          · rfl
          · rw [demoted_eq_self_iff.mpr (by rw [← hv]; simpa using hholds)]
      have hself : editSelected (c.indices 0 items).contains e 0 items = .ok items := by
        refine editSelected_eq_self fun i v hv hs => ?_
        rw [Nat.zero_add, contains_indices hv] at hs
        have hmem := List.mem_of_getElem? hv
        exact h v hmem (by simpa using (hprimary rfl v hmem).symm.trans hs)
      rw [if_pos rfl, hothers, hself] at hagain
      exact (Except.ok.inj hagain).symm

theorem dropRepeats_of_distinct (h : items.Pairwise fun v w => v.same w = false) :
    dropRepeats items = items := by
  have step (rest kept : List Json) (hk : (kept ++ rest).Pairwise fun v w => v.same w = false) :
      rest.foldl (fun kept v => if kept.any (·.same v) then kept else kept ++ [v]) kept =
        kept ++ rest := by
    induction rest generalizing kept with
    | nil => simp
    | cons v rest ih =>
      have hnone : kept.any (·.same v) = false := by
        rw [List.any_eq_false]
        intro u hu
        simpa using (List.pairwise_append.mp hk).2.2 u hu v List.mem_cons_self
      rw [List.foldl_cons, hnone, if_neg Bool.false_ne_true, ih, List.append_assoc]
      · rfl
      · rwa [List.append_assoc]
  exact step items [] h

end

/-! ### Replacements -/

/-- The target with the elements that a condition selects of a list, or without a selection. -/
def Target.choosing (t : Target) (c : Option Condition) (items : List Json) : Target :=
  { t with selection := match c with
    | none => .whole
    | some c => .elements (c.indices 0 items) }

/-- A replacement marks the elements that it selects as primary. -/
def Target.marksChosen (t : Target) (a : Attribute) (value : Json) : Bool :=
  match t.sub with
  | some sub => (checkValue sub value).toOption.any sub.marksPrimary
  | none => (checkSingle a value).toOption.any Json.isPrimary

/-- A replacement that marks elements as primary selects those that are. -/
def Target.Settled (t : Target) (a : Attribute) (value : Json) (holder : Members Json) : Prop :=
  t.marksChosen a value = true → ∀ indices ∈ t.selection.indices?,
    ∀ p ∈ (listAt holder a.name).zipIdx, p.2 ∈ indices ↔ p.1.isPrimary = true

instance (t : Target) (a : Attribute) (value : Json) (holder : Members Json) :
    Decidable (t.Settled a value holder) :=
  inferInstanceAs (Decidable (t.marksChosen a value = true → ∀ indices ∈ t.selection.indices?,
    ∀ p ∈ (listAt holder a.name).zipIdx, p.2 ∈ indices ↔ p.1.isPrimary = true))

section

variable {a : Attribute} {t : Target} {c : Condition} {value : Json} {items : List Json}
  {holder holder' first again : Members Json}

theorem Target.settled_choosing_iff :
    (t.choosing (some c) (listAt holder a.name)).Settled a value holder ↔
      (t.marksChosen a value = true → ∀ v ∈ listAt holder a.name, c.holds v = v.isPrimary) := by
  have hindex {i : Nat} {v : Json} (hv : (listAt holder a.name)[i]? = some v) :
      (i ∈ c.indices 0 (listAt holder a.name) ↔ v.isPrimary = true) ↔ c.holds v = v.isPrimary := by
    rw [← List.contains_iff_mem, contains_indices hv, ← Bool.eq_iff_iff]
  refine imp_congr_right fun _ => ?_
  simp only [Target.choosing, Selection.indices?, Option.mem_some_iff, forall_eq']
  constructor
  · intro h v hv
    obtain ⟨i, hi⟩ := List.mem_iff_getElem?.mp hv
    exact (hindex hi).mp (h (v, i) (List.mk_mem_zipIdx_iff_getElem?.mpr hi))
  · rintro h ⟨v, i⟩ hp
    have hi := List.mk_mem_zipIdx_iff_getElem?.mp hp
    exact (hindex hi).mpr (h v (List.mem_of_getElem? hi))

/-- The edit that a replacement makes of a selected element. -/
def Target.replaceElement (t : Target) (a : Attribute) (value : Json) : Edit Json :=
  match t.sub with
  | some sub => fun v => do setSub sub (← checkValue sub value) v
  | none => fun _ => checkSingle a value

/-- What becomes of a list whose elements have been replaced. -/
def Target.settle (t : Target) (items : List Json) : List Json :=
  if t.sub.isSome then items else dropRepeats items

theorem Target.replaceElement_settling (t : Target) (a : Attribute) (value : Json) :
    Settling (t.replaceElement a value) := by
  intro v w h
  cases hs : t.sub with
  | some sub =>
    simp only [Target.replaceElement, hs] at h ⊢
    obtain ⟨new, hnew, h⟩ := bind_eq_ok.mp h
    exact bind_eq_ok.mpr ⟨new, hnew, setSub_settling sub new v w h⟩
  | none =>
    simp only [Target.replaceElement, hs] at h ⊢
    exact h

theorem Target.replaceElement_marks (hspell : a.spellsPrimary = true)
    (hsub : ∀ sub, t.sub = some sub → Defined a.subAttributes sub)
    (hmarks : t.marksChosen a value = true) (v w : Json)
    (h : t.replaceElement a value v = .ok w) : w.isPrimary = true := by
  cases hs : t.sub with
  | some sub =>
    simp only [Target.replaceElement, Target.marksChosen, hs] at h hmarks
    obtain ⟨new, hnew, h⟩ := bind_eq_ok.mp h
    rw [hnew] at hmarks
    rw [← PrimaryReading.anyCase_marks]
    exact marks_of_marksPrimary hspell (hsub sub hs) hmarks h
  | none =>
    simp only [Target.replaceElement, Target.marksChosen, hs] at h hmarks
    rwa [h] at hmarks

/-- The replacement of selected elements, as an edit of their list. -/
theorem Target.replaceIn_choosing
    (h : (t.choosing (some c) (listAt holder a.name)).replaceIn a value holder = .ok holder') :
    ∃ items, editChosen c (t.marksChosen a value) (t.replaceElement a value)
        (listAt holder a.name) = .ok items ∧
      putHeld holder a.name (.arr (t.settle items)) = holder' := by
  cases hs : t.sub with
  | some sub =>
    simp only [Target.replaceIn, Target.choosing, hs] at h
    obtain ⟨new, hnew, h⟩ := bind_eq_ok.mp h
    obtain ⟨items, hitems, rfl⟩ := editList_eq_ok h
    refine ⟨items, ?_, by simp [Target.settle, hs]⟩
    have hedit : t.replaceElement a value = setSub sub new := by
      funext v
      simp [Target.replaceElement, hs, hnew, bind, Except.bind]
    have hmarks : t.marksChosen a value = sub.marksPrimary new := by
      simp [Target.marksChosen, hs, hnew, Except.toOption]
    rw [hedit, hmarks]
    exact hitems
  | none =>
    simp only [Target.replaceIn, Target.choosing, hs] at h
    obtain ⟨new, hnew, h⟩ := bind_eq_ok.mp h
    obtain ⟨items, hitems, rfl⟩ := editList_eq_ok h
    obtain ⟨edited, hedited, hitems⟩ := bind_eq_ok.mp hitems
    cases hitems
    refine ⟨edited, ?_, by simp [Target.settle, hs]⟩
    have hedit : t.replaceElement a value = fun _ => .ok new := by
      funext v
      simp [Target.replaceElement, hs, hnew]
    have hmarks : t.marksChosen a value = new.isPrimary := by
      simp [Target.marksChosen, hs, hnew, Except.toOption]
    rw [hedit, hmarks]
    exact hedited

theorem settle_sublist (t : Target) (items : List Json) : (t.settle items).Sublist items := by
  unfold Target.settle
  split_ifs
  · exact List.Sublist.refl items
  · exact dropRepeats_sublist items

theorem settle_settle (t : Target) (items : List Json) :
    t.settle (t.settle items) = t.settle items := by
  unfold Target.settle
  split_ifs
  · rfl
  · exact dropRepeats_of_distinct (dropRepeats_distinct items)

theorem listAt_of_find? {name : String} (h : find? holder name = some (.arr items)) :
    listAt holder name = items := by
  simp [listAt, h, Json.items?]

/-- The replacement of selected elements that is made again, on what the first one has left of its
attribute, changes nothing exactly when it is settled. -/
theorem replaceIn_choosing_again (hspell : a.spellsPrimary = true)
    (hsub : ∀ sub, t.sub = some sub → Defined a.subAttributes sub)
    (hfirst : (t.choosing (some c) (listAt first a.name)).replaceIn a value first = .ok holder')
    (hsorted : Sorted holder) (hsame : under holder a.name = under holder' a.name)
    (hagain : (t.choosing (some c) (listAt holder a.name)).replaceIn a value holder = .ok again) :
    ((t.choosing (some c) (listAt holder a.name)).Settled a value holder → again = holder) ∧
    (under again a.name = under holder a.name →
      (t.choosing (some c) (listAt holder a.name)).Settled a value holder) := by
  obtain ⟨edited, hedited, rfl⟩ := Target.replaceIn_choosing hfirst
  obtain ⟨items, hitems, rfl⟩ := Target.replaceIn_choosing hagain
  have hfound : find? holder a.name = some (.arr (t.settle edited)) :=
    (find?_of_under hsame).trans (find?_putHeld_self _ _ _)
  rw [Target.settled_choosing_iff, listAt_of_find? hfound] at *
  have hrests : RestsOn c (t.marksChosen a value) (t.replaceElement a value) (t.settle edited) :=
    fun v hv => restsOn_editChosen (t.replaceElement_settling a value) hedited v
      ((settle_sublist t edited).subset hv)
  have hiff := hrests.again (fun hm => Target.replaceElement_marks hspell hsub hm) hitems
  constructor
  · intro hsettled
    rw [hiff.mpr hsettled, settle_settle]
    exact putHeld_of_find? hsorted hfound
  · intro hunder
    apply hiff.mp
    have hput := (find?_of_under hunder).symm.trans (find?_putHeld_self _ _ _)
    have heq : t.settle edited = t.settle items :=
      Json.arr.inj (Option.some.inj (hfound.symm.trans hput))
    -- as many elements are left as were edited, so that none has been dropped
    have hlength : items.length = (t.settle edited).length := by
      unfold editChosen at hitems
      rw [editSelected_length hitems]
      split_ifs <;> simp [demoteOthers]
    calc items
      _ = t.settle items := ((settle_sublist t items).eq_of_length (by rw [← heq, hlength])).symm
      _ = t.settle edited := heq.symm

/-- The replacement of a whole attribute, or of a sub-attribute of all its elements, that is made
again changes nothing. -/
theorem replaceIn_whole_again
    (hfirst : (t.choosing none items).replaceIn a value first = .ok holder')
    (hsorted : Sorted holder) (hsame : under holder a.name = under holder' a.name)
    {others : List Json} (hagain : (t.choosing none others).replaceIn a value holder = .ok again) :
    again = holder := by
  cases hs : t.sub with
  | some sub =>
    simp only [Target.replaceIn, Target.choosing, hs] at hfirst hagain
    obtain ⟨new, edited, hnew, -, hedited, rfl⟩ := setEvery_eq_ok hfirst
    obtain ⟨new', items', hnew', -, hitems', rfl⟩ := setEvery_eq_ok hagain
    obtain rfl : new = new' := Except.ok.inj (hnew.symm.trans hnew')
    have hfound : find? holder a.name = some (.arr edited) :=
      (find?_of_under hsame).trans (find?_putHeld_self _ _ _)
    rw [listAt_of_find? hfound] at hitems'
    have hself : editSelected (fun _ => true) (setSub sub new) 0 edited = .ok edited := by
      refine editSelected_eq_self fun i w hw _ => ?_
      obtain ⟨v, -, hv⟩ := editSelected_getElem? hedited hw
      exact setSub_settling sub new v w hv
    obtain rfl : edited = items' := Except.ok.inj (hself.symm.trans hitems')
    exact putHeld_of_find? hsorted hfound
  | none =>
    simp only [Target.replaceIn, Target.choosing, hs] at hfirst hagain
    obtain ⟨new, hnew, hfirst⟩ := bind_eq_ok.mp hfirst
    obtain ⟨new', hnew', hagain⟩ := bind_eq_ok.mp hagain
    obtain rfl : new = new' := Except.ok.inj (hnew.symm.trans hnew')
    rw [guard_eq_ok] at hfirst hagain
    obtain ⟨_, -, hfirst⟩ := bind_eq_ok.mp hfirst.2
    obtain ⟨_, -, hagain⟩ := bind_eq_ok.mp hagain.2
    cases hfirst
    cases hagain
    exact set_of_get? hsorted ((get?_of_under hsame).trans (get?_set_self _ _ _))

/-! ### Removals -/

/-- The indices that a selection takes in. -/
def Selection.chosen : Selection → Nat → Bool
  | .whole => fun _ => true
  | .elements indices => indices.contains

/-- The edit that a removal makes of a list, of which it does not take the whole. -/
def Target.removeElements (t : Target) : Edit (List Json) :=
  match t.sub with
  | none => fun items => .ok (dropSelected t.selection.chosen items)
  | some sub => editSelected t.selection.chosen (dropSub sub) 0

/-- The edit of a list that goes when it is left empty: there is no list, or nothing of it is left,
or something is. -/
inductive Pruned (name : String) (f : Edit (List Json)) (holder : Members Json) :
    Members Json → Prop where
  | unlisted (none : ∀ items, find? holder name ≠ some (.arr items)) : Pruned name f holder holder
  | emptied {items : List Json} (held : find? holder name = some (.arr items))
      (edited : f items = .ok []) :
      Pruned name f holder (remove (putHeld holder name (.arr [])) name)
  | kept {items : List Json} {v : Json} {rest : List Json}
      (held : find? holder name = some (.arr items)) (edited : f items = .ok (v :: rest)) :
      Pruned name f holder (putHeld holder name (.arr (v :: rest)))

theorem pruned_of_editHeldList {name : String} {f : Edit (List Json)} {edited : Members Json}
    (h : editHeldList name f holder = .ok edited) (hdrop : dropEmptyList name edited = holder') :
    Pruned name f holder holder' := by
  subst hdrop
  unfold editHeldList at h
  split at h
  · rename_i items hf
    obtain ⟨items', hitems, rfl⟩ := editList_eq_ok h
    rw [listAt_of_find? hf] at hitems
    rw [dropEmptyList, find?_putHeld_self]
    cases items' with
    | nil => exact .emptied hf hitems
    | cons v rest => exact .kept hf hitems
  · rename_i hlist
    cases h
    have hnone (items : List Json) : find? holder name ≠ some (.arr items) :=
      fun hf => hlist items hf
    have hsame : dropEmptyList name holder = holder := by
      unfold dropEmptyList
      split
      · rename_i hf
        exact absurd hf (hnone [])
      · rfl
    rw [hsame]
    exact .unlisted hnone

/-- An attribute is removed as a whole, or its list is edited and goes when it is left empty. -/
theorem Target.removal_eq_ok (h : t.removal a none holder = .ok holder') :
    (t.selection = .whole ∧ t.sub = none ∧
      holder' = dropEmptyList a.name (Members.remove holder a.name)) ∨
    ((t.selection = .whole → t.sub ≠ none) ∧
      Pruned a.name t.removeElements holder holder') := by
  obtain ⟨edited, hr, h⟩ := bind_eq_ok.mp h
  have hdrop := Except.ok.inj h
  unfold Target.removeIn at hr
  split at hr
  · rename_i hsel hs
    rw [guard_eq_ok] at hr
    split at hr
    · cases ‹none = some _›
    · rw [guard_eq_ok] at hr
      cases hr.2.2
      exact .inl ⟨hsel, hs, hdrop.symm⟩
  · rename_i indices hsel hs
    refine .inr ⟨by simp [hsel], pruned_of_editHeldList ?_ hdrop⟩
    simpa only [Target.removeElements, hs, hsel, Selection.chosen] using hr
  · rename_i selection sub hs
    rw [guard_eq_ok] at hr
    refine .inr ⟨by simp [hs], pruned_of_editHeldList ?_ hdrop⟩
    cases hsel : t.selection <;>
      simpa only [Target.removeElements, hs, hsel, Selection.chosen] using hr.2

/-- Where nothing is held nothing is removed. -/
theorem removal_of_find?_eq_none (hnone : find? holder a.name = none)
    (h : t.removal a none holder = .ok again) : again = holder := by
  have hempty : dropEmptyList a.name holder = holder := by rw [dropEmptyList, hnone]
  rcases Target.removal_eq_ok h with ⟨-, -, rfl⟩ | ⟨-, hpruned⟩
  · rw [remove_of_find?_eq_none hnone, hempty]
  · cases hpruned with
    | unlisted => rfl
    | emptied hf => simp [hnone] at hf
    | kept hf => simp [hnone] at hf

theorem mem_dropSelected {selected : Nat → Bool} {v : Json} (h : v ∈ dropSelected selected items) :
    ∃ i, items[i]? = some v ∧ selected i = false := by
  obtain ⟨⟨w, i⟩, hp, rfl⟩ := List.mem_map.mp h
  obtain ⟨hmem, hs⟩ := List.mem_filter.mp hp
  exact ⟨i, List.mk_mem_zipIdx_iff_getElem?.mp hmem, by simpa using hs⟩

/-- What is left of a list from which elements, or a sub-attribute of them, have been removed is
left by the same removal, where it selects anything at all. -/
theorem removeElements_again {c : Option Condition} {items' again : List Json}
    (hones : ∀ sub, t.sub = some sub → ∀ v ∈ items, SpelledOnce v.root sub.name)
    (hwhole : c = none → t.sub ≠ none)
    (hfirst : (t.choosing c items).removeElements items = .ok items')
    (hmatch : (t.choosing c items').selection ≠ .elements [])
    (hagain : (t.choosing c items').removeElements items' = .ok again) : again = items' := by
  have hchosen {c : Condition} {items : List Json} :
      (t.choosing (some c) items).selection.chosen = (c.indices 0 items).contains := rfl
  cases hs : t.sub with
  | none =>
    cases c with
    | none => exact absurd hs (hwhole rfl)
    | some c =>
      -- the condition holds of none that is left
      simp only [Target.removeElements, Target.choosing, hs] at hfirst
      have hfirst := Except.ok.inj hfirst
      refine absurd ?_ hmatch
      have hnone : c.indices 0 items' = [] := by
        refine List.eq_nil_iff_forall_not_mem.mpr fun i hi => ?_
        obtain ⟨j, v, -, hv, hholds⟩ := mem_indices.mp hi
        obtain ⟨k, hk, hout⟩ := mem_dropSelected (hfirst ▸ List.mem_of_getElem? hv)
        rw [Selection.chosen, contains_indices hk, hholds] at hout
        cases hout
      simp [Target.choosing, hnone]
  | some sub =>
    simp only [Target.removeElements, Target.choosing, hs] at hfirst hagain
    refine Except.ok.inj (hagain.symm.trans (editSelected_eq_self fun i w hw hchosen' => ?_))
    obtain ⟨v, hv, hedit⟩ := editSelected_getElem? hfirst hw
    have hone := hones sub hs v (List.mem_of_getElem? hv)
    rw [Nat.zero_add] at hedit hchosen'
    split_ifs at hedit with hbefore
    · exact dropSub_dropSub hone hedit
    · -- an element that was passed over is passed over again
      subst hedit
      cases c with
      | none => exact absurd rfl hbefore
      | some c =>
        rw [Selection.chosen, contains_indices hw] at hchosen'
        rw [Selection.chosen, contains_indices hv] at hbefore
        exact absurd hchosen' hbefore

/-- A removal that is made again, on what the first one has left of its attribute, changes
nothing. -/
theorem removal_again {c : Option Condition} (hone : SpelledOnce first a.name)
    (hones : ∀ sub, t.sub = some sub → ∀ v ∈ listAt first a.name, SpelledOnce v.root sub.name)
    (hfirst : (t.choosing c (listAt first a.name)).removal a none first = .ok holder')
    (hsorted : Sorted holder) (hsame : under holder a.name = under holder' a.name)
    (hmatch : (t.choosing c (listAt holder a.name)).selection ≠ .elements [])
    (hagain : (t.choosing c (listAt holder a.name)).removal a none holder = .ok again) :
    again = holder := by
  have hfound : find? holder a.name = find? holder' a.name := find?_of_under hsame
  have gone (hnone : find? holder' a.name = none) : again = holder :=
    removal_of_find?_eq_none (hfound.trans hnone) hagain
  rcases Target.removal_eq_ok hfirst with ⟨-, -, rfl⟩ | ⟨hpart, hpruned⟩
  -- what was removed as a whole is not there any more, and elements are removed from a list
  · apply gone
    rw [dropEmptyList, hone.find?_remove]
    exact hone.find?_remove
  · have hwhole : c = none → t.sub ≠ none := by
      rintro rfl
      exact hpart rfl
    have hagain : Pruned a.name (t.choosing c (listAt holder a.name)).removeElements holder
        again := by
      rcases Target.removal_eq_ok hagain with ⟨hsel, hs, -⟩ | ⟨-, hagain⟩
      · cases c with
        | none => exact absurd hs (hwhole rfl)
        | some c => cases hsel
      · exact hagain
    cases hpruned with
    | emptied => exact gone (hone.putHeld _ _).find?_remove
    | unlisted hnone =>
      cases hagain with
      | unlisted => rfl
      | emptied hf => exact absurd (hfound.symm.trans hf) (hnone _)
      | kept hf => exact absurd (hfound.symm.trans hf) (hnone _)
    | @kept items v rest hf hedited =>
      rw [find?_putHeld_self] at hfound
      rw [listAt_of_find? hf] at hones hedited
      rw [listAt_of_find? hfound] at hmatch hagain
      have left {after : List Json}
          (hafter : (t.choosing c (v :: rest)).removeElements (v :: rest) = .ok after) :
          after = v :: rest := removeElements_again hones hwhole hedited hmatch hafter
      cases hagain with
      | unlisted hnone => exact absurd hfound (hnone _)
      | emptied hf' hafter =>
        rw [hfound] at hf'
        cases hf'
        cases left hafter
      | kept hf' hafter =>
        rw [hfound] at hf'
        cases hf'
        rw [left hafter]
        exact putHeld_of_find? hsorted hfound

end

end Roster
