import Roster.Proofs.Patch.Immutable
import Roster.Proofs.Query.Selection

/-! Modifications of the elements that a value filter selects of a list at the top of a resource. A
removal takes out just these, a write of a sub-attribute changes just these, and all else stays as
it is. -/

namespace Roster

open Members Json

/-! ### Paths with a value filter -/

/-- A name with a filter behind it selects, of a list of complex values that clients may write, the
elements that satisfy a condition. -/
structure SelectsBy (r : Registry) (kind : Kind) (name text : String) (a : Attribute) (f : Filter)
    (c : Condition) : Prop where
  found : kind.attribute? name = some a
  complex : a.type = .complex
  list : a.multiValued = true
  writable : a.isReadOnly = false
  filter : Filter.parse text = .ok f
  compiled : f.compile r kind (.members a.subAttributes) = .ok c

section

variable {r : Registry} {kind : Kind} {name text path : String} {a : Attribute} {f : Filter}
  {c : Condition} {rest : List Segment} {resource : Json} {items : List Json} {t : Target}

/-- The target of such a path, which may end with a sub-attribute, in a resource that holds the
items. -/
def selectionTarget (path : String) (a : Attribute) (f : Filter) (c : Condition)
    (sub : Option Attribute) (items : List Json) : Target :=
  ⟨path, [], a.name, some a, a.subAttributes, .elements (c.indices 0 items), sub, some f, none⟩

theorem SelectsBy.resolve_iff (h : SelectsBy r kind name text a f c) :
    (⟨.selection name text :: rest⟩ : Expression).resolve r kind resource = .ok t ↔
      ∃ sub, a.lastSub (Expression.joinSegments (.selection name text :: rest)) rest = .ok sub ∧
        t = selectionTarget (Expression.joinSegments (.selection name text :: rest)) a f c sub
          (listAt resource.root a.name) := by
  have hfind : Scope.resource.find? kind name = some a := h.found
  have hlist : ((resource.follow? [] a.name).bind items?).getD [] = listAt resource.root a.name :=
    follow?_eq resource [] a.name
  simp only [Expression.resolve, Expression.normalized, resolveSegments, Segment.isSchemaUrn,
    Segment.name?, hfind, h.writable, h.list, Bool.false_eq_true, Bool.not_true, Bool.false_and,
    if_false, Segment.filterOrError, Segment.parsedFilter, Segment.filter?, h.filter,
    Attribute.select, hlist]
  cases a.lastSub (Expression.joinSegments (.selection name text :: rest)) rest <;>
    simp [h.compiled, bind, Except.bind, Except.map, selectionTarget, eq_comm]

theorem SelectsBy.resolveText (h : SelectsBy r kind name text a f c)
    (hpath : Expression.parse r path = .ok ⟨[.selection name text]⟩) (resource : Json) :
    Roster.resolveText r kind path resource = .ok (selectionTarget
      (Expression.joinSegments [.selection name text]) a f c none (listAt resource.root a.name)) :=
  resolveText_eq_ok.mpr ⟨_, hpath, h.resolve_iff.mpr ⟨none, rfl, rfl⟩⟩

/-! ### Removals -/

/-- The elements at the indices of those that satisfy a condition are dropped exactly if they do. -/
theorem dropSelected_indices (c : Condition) (items : List Json) :
    dropSelected (c.indices 0 items).contains items = items.filter fun v => !c.holds v := by
  have hselected : items.zipIdx.filter (fun p => !(c.indices 0 items).contains p.2) =
      items.zipIdx.filter fun p => !c.holds p.1 :=
    List.filter_congr fun p hp => by rw [contains_indices (List.mk_mem_zipIdx_iff_getElem?.mp hp)]
  rw [dropSelected, hselected]
  conv_rhs => rw [← List.zipIdx_map_fst 0 items, List.filter_map]
  rfl

theorem indices_eq_nil (hnone : ∀ v ∈ items, c.holds v = false) : c.indices 0 items = [] := by
  rw [← not_ne_iff, indices_ne_nil]
  simpa using hnone

/-- A change fails for want of a target. -/
def MissesTarget (outcome : Except PatchFault Json) : Prop :=
  ∃ fault, outcome = .error fault ∧ fault.type = .noTarget

/-- A path that is read is not blank, so that a removal at it is of the right shape. -/
theorem Operation.check_remove {e : Expression} (hpath : Expression.parse r path = .ok e)
    (value : Option Json) : (Operation.remove (some path) value).check = .ok () := by
  have hvisible : isBlankText path = false := by
    by_contra hblank
    have hskip : skipBlanks path.toList = [] := by
      simpa [skipBlanks, isBlankText] using hblank
    have htrim : trimBlanks path.toList = [] := by rw [trimBlanks, hskip]; rfl
    simp [Expression.parse, htrim] at hpath
  simp [Operation.check, hvisible]

theorem Operation.remove_eq {e : Expression} (hpath : Expression.parse r path = .ok e)
    {value : Option Json} (ht : Roster.resolveText r kind path resource = .ok t) :
    (Operation.remove (some path) value).apply r kind resource =
      t.remove r kind value resource := by
  simp [Operation.apply, Operation.check_remove hpath, ht, bind, Except.bind]

theorem remove_unmatched (h : SelectsBy r kind name text a f c)
    (hpath : Expression.parse r path = .ok ⟨[.selection name text]⟩)
    (hnone : ∀ v ∈ listAt resource.root a.name, c.holds v = false) (value : Option Json) :
    MissesTarget ((Operation.remove (some path) value).apply r kind resource) := by
  refine ⟨.expression (.noTarget (Expression.joinSegments [.selection name text]) .nothingMatched),
    ?_, rfl⟩
  rw [Operation.remove_eq hpath (h.resolveText hpath resource)]
  simp [Target.remove, selectionTarget, Target.requireMatch, indices_eq_nil hnone, liftFault, bind,
    Except.bind]

theorem editList_of_find? {root : Members Json} {name : String} {edit : Edit (List Json)}
    {items' : List Json} (hitems : find? root name = some (.arr items))
    (hedit : edit items = .ok items') :
    Members.editList name edit root = .ok (putHeld root name (.arr items')) := by
  refine edit_eq_ok.mpr ⟨.arr items', ?_, rfl⟩
  rw [hitems, Option.getD_some, Json.editList, hedit]
  rfl

/-- What a removal leaves of the list: the other elements, and no list where there are none. -/
theorem removal_selected (f : Filter) (c : Condition) {root : Members Json} (value : Option Json)
    (hone : SpelledOnce root a.name) (hitems : find? root a.name = some (.arr items)) :
    ∃ root', (selectionTarget path a f c none items).removal a value root = .ok root' ∧
      besides root' a.name = besides root a.name ∧ find? root' a.name =
        if (items.filter fun v => !c.holds v).isEmpty then none
        else some (.arr (items.filter fun v => !c.holds v)) := by
  have hedit : (selectionTarget path a f c none items).removeIn a value root =
      .ok (putHeld root a.name (.arr (items.filter fun v => !c.holds v))) := by
    simp only [Target.removeIn, selectionTarget, editHeldList, hitems]
    exact editList_of_find? hitems (congrArg Except.ok (dropSelected_indices c items))
  refine ⟨_, by rw [Target.removal, hedit]; rfl, ?_⟩
  rw [dropEmptyList, find?_putHeld_self]
  cases items.filter fun v => !c.holds v with
  | nil =>
    -- the empty list is dropped, and no other spelling comes to light
    exact ⟨(besides_remove _ _).trans (besides_putHeld _ _ _),
      SpelledOnce.find?_remove (hone.putHeld a.name (.arr []))⟩
  | cons v rest => exact ⟨besides_putHeld _ _ _, find?_putHeld_self _ _ _⟩

theorem Target.remove_at_top {root root' : Members Json} {value : Option Json}
    (hd : t.definition = some a) (hc : t.container = []) (he : t.extension = none)
    (hm : t.requireMatch = .ok ()) (h : t.removal a value root = .ok root') :
    t.remove r kind value (.obj root) = .ok (.obj root') := by
  have hedit : Json.editAt [] (t.removal a value) (.obj root) = .ok (.obj root') := by
    simp [Json.editAt, Json.editObject, Members.editWithin, h, Except.map]
  have hremove : t.remove r kind value (.obj root) =
      Json.editAt [] (t.removal a value) (.obj root) >>= Except.ok := by
    simp only [Target.remove, hd, hm, hc, he]
    rfl
  rw [hremove, hedit]
  rfl

/-- Where a list with an element is held, the resource is an object with a list. -/
theorem exists_list_of_mem {v : Json} {name : String} (hv : v ∈ listAt resource.root name) :
    ∃ root items, resource = .obj root ∧ find? root name = some (.arr items) := by
  cases resource with
  | obj root =>
    refine ⟨root, ?_⟩
    unfold listAt at hv
    cases hf : find? root name with
    | none => simp [Json.root, Json.members?, hf] at hv
    | some held => cases held <;> simp_all [Json.root, Json.members?, Json.items?]
  | _ => simp [Json.root, Json.members?, listAt, find?, key?, keys, Members.get?] at hv

theorem remove_matched (h : SelectsBy r kind name text a f c)
    (hpath : Expression.parse r path = .ok ⟨[.selection name text]⟩)
    (hone : SpelledOnce resource.root a.name)
    (hsome : ∃ v ∈ listAt resource.root a.name, c.holds v = true) (value : Option Json) :
    ∃ root', (Operation.remove (some path) value).apply r kind resource = .ok (.obj root') ∧
      besides root' a.name = besides resource.root a.name ∧ find? root' a.name =
        if ((listAt resource.root a.name).filter fun v => !c.holds v).isEmpty then none
        else some (.arr ((listAt resource.root a.name).filter fun v => !c.holds v)) := by
  obtain ⟨v, hv, hholds⟩ := hsome
  obtain ⟨root, items, rfl, hitems⟩ := exists_list_of_mem hv
  have hlist : listAt (Json.obj root).root a.name = items := listAt_of_find? hitems
  rw [hlist] at hv ⊢
  obtain ⟨root', hremoval, hothers, hleft⟩ := removal_selected f c value hone hitems
  refine ⟨root', ?_, hothers, hleft⟩
  have hindices : c.indices 0 items ≠ [] :=
    indices_ne_nil.mpr (List.any_eq_true.mpr ⟨v, hv, hholds⟩)
  rw [Operation.remove_eq hpath (h.resolveText hpath _), hlist]
  refine Target.remove_at_top rfl rfl rfl ?_ hremoval
  simp [Target.requireMatch, selectionTarget, hindices]

/-- A removal under a value filter fails where no element satisfies the filter. Else it leaves the
elements that do not, in their order, and no list where there are none; nothing else is changed, and
the same removal fails from then on. -/
theorem Operation.remove_selected (h : SelectsBy r kind name text a f c)
    (hpath : Expression.parse r path = .ok ⟨[.selection name text]⟩)
    (hone : SpelledOnce resource.root a.name) (value : Option Json) :
    ((∀ v ∈ listAt resource.root a.name, c.holds v = false) →
      MissesTarget ((Operation.remove (some path) value).apply r kind resource)) ∧
    ((∃ v ∈ listAt resource.root a.name, c.holds v = true) →
      ∃ root', (Operation.remove (some path) value).apply r kind resource = .ok (.obj root') ∧
        besides root' a.name = besides resource.root a.name ∧
        find? root' a.name =
          (if ((listAt resource.root a.name).filter fun v => !c.holds v).isEmpty then none
          else some (.arr ((listAt resource.root a.name).filter fun v => !c.holds v))) ∧
        MissesTarget ((Operation.remove (some path) value).apply r kind (.obj root'))) := by
  refine ⟨fun hnone => remove_unmatched h hpath hnone value, fun hsome => ?_⟩
  obtain ⟨root', happly, hothers, hleft⟩ := remove_matched h hpath hone hsome value
  refine ⟨root', happly, hothers, hleft, remove_unmatched h hpath (fun v hv => ?_) value⟩
  -- every element that is left has been passed over
  have hkept : v ∈ (listAt resource.root a.name).filter fun v => !c.holds v := by
    have hlist : listAt (Json.obj root').root a.name = ((find? root' a.name).bind items?).getD [] :=
      rfl
    rw [hlist, hleft] at hv
    split_ifs at hv
    · cases hv
    · exact hv
  simpa using (List.mem_filter.mp hkept).2

end

/-- The mail addresses of users. -/
def mails : Attribute := (Kind.user.attribute? "emails").getD default

theorem selectsBy_mails {r : Registry} {text : String} {f : Filter} {c : Condition}
    (hf : Filter.parse text = .ok f)
    (hc : f.compile r .user (.members mails.subAttributes) = .ok c) :
    SelectsBy r .user "emails" text mails f c where
  found := by
    have hsome : (Kind.user.attribute? "emails").isSome = true := by decide +kernel
    obtain ⟨a, ha⟩ := Option.isSome_iff_exists.mp hsome
    rw [mails, ha, Option.getD_some]
  complex := by decide +kernel
  list := by decide +kernel
  writable := by decide +kernel
  filter := hf
  compiled := hc

/-- The mail address for work is removed, and the one for home stays. -/
theorem Operation.remove_selected_work :
    let c : Condition := .compare ["type"] .eq (.text "work") false
    SelectsBy .standard .user "emails" "type eq \"work\"" mails
        (.compare (.ofName "type") .eq (.text "work")) c ∧
      Expression.parse .standard "emails[type eq \"work\"]" =
        .ok ⟨[.selection "emails" "type eq \"work\""]⟩ ∧
      SpelledOnce mailed.root mails.name ∧
      ∃ root', (Operation.remove (some "emails[type eq \"work\"]") none).apply .standard .user
          mailed = .ok (.obj root') ∧
        find? root' mails.name = some (.arr [.obj [("type", .str "home")]]) := by
  intro c
  have hselects : SelectsBy .standard .user "emails" "type eq \"work\"" mails
      (.compare (.ofName "type") .eq (.text "work")) c :=
    selectsBy_mails (by decide +kernel) (by decide +kernel)
  have hpath : Expression.parse .standard "emails[type eq \"work\"]" =
      .ok ⟨[.selection "emails" "type eq \"work\""]⟩ := by decide +kernel
  have hone : SpelledOnce mailed.root mails.name := by decide +kernel
  have hsome : ∃ v ∈ listAt mailed.root mails.name, c.holds v = true := by decide +kernel
  obtain ⟨root', happly, -, hleft, -⟩ := (remove_selected hselects hpath hone none).2 hsome
  exact ⟨hselects, hpath, hone, root', happly, by rw [hleft]; decide +kernel⟩

/-! ### Writes of a sub-attribute -/

/-- The members of an object with another value under a name, which has this one spelling now. No
other member is changed. -/
structure Assigned (name : String) (new v w : Json) : Prop where
  value : w.get? name = some new
  spelled : ∀ k ∈ keys w.root, sameName name k = true → k = name
  others : besides w.root name = besides v.root name

/-- What a write of a sub-attribute makes of an element. One that is selected gets the value; if
this marks these as primary, another one that was is no longer. -/
structure Rewritten (sub : Attribute) (new : Json) (selected : Prop) (v w : Json) : Prop where
  written : selected → Assigned sub.name new v w
  demoted : ¬selected → sub.name = "primary" → new = .bool true → v.isPrimary = true →
    Assigned "primary" (.bool false) v w
  kept : ¬selected → ¬ (sub.name = "primary" ∧ new = .bool true ∧ v.isPrimary = true) → w = v

section

variable {r : Registry} {kind : Kind} {path name : String} {a sub : Attribute}
  {value new v w resource resource' : Json} {t : Target} {indices : List Nat}
  {holder holder' : Members Json}

theorem assigned_set (hone : SpelledOnce v.root name) :
    Assigned name new v (.obj (set v.root name new)) where
  value := get?_set_self v.root name new
  spelled k hk hs := by
    have hheld : (Members.get? (set v.root name new) name).isSome = true := by
      rw [get?_set_self]
      rfl
    exact hone.set (fun _ => rfl) k hk name (isSome_get?.mp hheld) hs (sameName_refl _)
  others := besides_set v.root name new

theorem assigned_setSub (hone : SpelledOnce v.root sub.name) (h : setSub sub new v = .ok w) :
    Assigned sub.name new v w := by
  obtain ⟨members, hmembers, rfl⟩ := Json.editObject_eq_ok h
  obtain ⟨_, -, hmembers⟩ := bind_eq_ok.mp hmembers
  cases hmembers
  exact assigned_set hone

theorem assigned_demoted (hone : SpelledOnce v.root "primary") (h : v.isPrimary = true) :
    Assigned "primary" (.bool false) v v.demoted := by
  cases v with
  | obj ms =>
    rw [Json.demoted, if_pos h]
    exact assigned_set hone
  | _ => cases h

theorem Attribute.marksPrimary_iff :
    sub.marksPrimary new = true ↔ sub.name = "primary" ∧ new = .bool true := by
  rw [Attribute.marksPrimary, Bool.and_eq_true, beq_iff_eq, beq_iff_eq]
  refine and_congr_right fun _ => ?_
  cases new <;> simp [Json.bool?]

/-- Each element of the list is written or passed over by its index. -/
theorem setSelected_eq_ok
    (hone : ∀ v ∈ listAt holder a.name, SpelledOnce v.root sub.name ∧ SpelledOnce v.root "primary")
    (h : setSelected a sub indices value holder = .ok holder') :
    ∃ new items', checkValue sub value = .ok new ∧ holder' = putHeld holder a.name (.arr items') ∧
      items'.length = (listAt holder a.name).length ∧
      ∀ i v, (listAt holder a.name)[i]? = some v →
        ∃ w, items'[i]? = some w ∧ Rewritten sub new (i ∈ indices) v w := by
  obtain ⟨new, hnew, h⟩ := bind_eq_ok.mp h
  obtain ⟨items', hitems, rfl⟩ := editList_eq_ok h
  generalize hmarks : sub.marksPrimary new = marks at hitems
  have hlength := editSelected_length hitems
  have hsame : items'.length = (listAt holder a.name).length := by
    rw [hlength]
    split_ifs
    · exact List.length_mapIdx
    · rfl
  refine ⟨new, items', hnew, rfl, hsame, fun i v hv => ?_⟩
  have hi : i < items'.length := hsame ▸ (List.getElem?_eq_some_iff.mp hv).1
  obtain ⟨u, hu, hedit⟩ := editSelected_getElem? hitems (List.getElem?_eq_getElem hi)
  obtain ⟨hsub, hprimary⟩ := hone v (List.mem_of_getElem? hv)
  refine ⟨items'[i], List.getElem?_eq_getElem hi, ?_⟩
  rw [Nat.zero_add] at hedit
  by_cases hselected : i ∈ indices
  · -- a selected element is not demoted before
    have hcontains : indices.contains i = true := List.contains_iff_mem.mpr hselected
    obtain rfl : u = v := by
      split_ifs at hu
      · rw [demoteOthers_getElem? _ hv, if_pos hcontains] at hu
        exact (Option.some.inj hu).symm
      · exact Option.some.inj (hu.symm.trans hv)
    rw [if_pos hcontains] at hedit
    exact ⟨fun _ => assigned_setSub hsub hedit, fun hno => absurd hselected hno,
      fun hno => absurd hselected hno⟩
  · -- any other element is passed over, and only a mark that is written demotes it
    have hcontains : ¬ indices.contains i = true := fun hc =>
      hselected (List.contains_iff_mem.mp hc)
    rw [if_neg hcontains] at hedit
    rw [hedit]
    refine ⟨fun hyes => absurd hyes hselected, fun _ hname htrue hwas => ?_, fun _ hno => ?_⟩
    · rw [← hmarks, if_pos (Attribute.marksPrimary_iff.mpr ⟨hname, htrue⟩),
        demoteOthers_getElem? _ hv, if_neg hcontains] at hu
      cases hu
      exact assigned_demoted hprimary hwas
    · split_ifs at hu with hm
      · rw [demoteOthers_getElem? _ hv, if_neg hcontains] at hu
        cases hu
        obtain ⟨hname, htrue⟩ := Attribute.marksPrimary_iff.mp (hmarks.trans hm)
        refine demoted_eq_self_iff.mpr ?_
        by_contra hwas
        exact hno ⟨hname, htrue, by simpa using hwas⟩
      · exact Option.some.inj (hu.symm.trans hv)

/-- An edit at the top of a resource is an edit of its members. -/
theorem editAt_top {edit : Edit (Members Json)}
    (h : resource.editAt [] edit = .ok resource') :
    ∃ root', edit resource.root = .ok root' ∧ resource' = .obj root' :=
  Json.editObject_eq_ok h

/-- An addition or a replacement at the top of a resource edits its members. -/
theorem assign_at_top (how : Assignment) (hd : t.definition = some a) (hc : t.container = [])
    (he : t.extension = none)
    (h : (match how with
      | .add => t.add value resource
      | .replace => t.replace value resource) = .ok resource') :
    ∃ root', (match how with
      | .add => t.addIn a value resource.root
      | .replace => t.replaceIn a value resource.root) = .ok root' ∧ resource' = .obj root' := by
  cases how with
  | add =>
    cases Target.add_eq_ok h with
    | whole hwhole => cases hd.symm.trans hwhole
    | part hpart hedit =>
      cases hd.symm.trans hpart
      rw [Target.declareIn, he]
      exact editAt_top (hc ▸ hedit)
  | replace =>
    cases Target.replace_eq_ok h with
    | whole hwhole => cases hd.symm.trans hwhole
    | part hpart _ hedit =>
      cases hd.symm.trans hpart
      rw [Target.declareIn, he]
      exact editAt_top (hc ▸ hedit)

/-- A target at the top of a resource is not in an extension. -/
theorem extension_of_top (ht : t.Resolved r kind resource) (hd : t.definition = some a)
    (hc : t.container = []) : t.extension = none := by
  cases ht with
  | extension _ _ _ _ hnone => simp [hd] at hnone
  | core _ _ hext _ _ => exact hext
  | extended _ _ _ _ _ _ _ _ hcontainer _ _ => simp [hc] at hcontainer

/-- The operation that assigns a value at a path. -/
def Assignment.operation (how : Assignment) (path : String) (value : Json) : Operation :=
  match how with
  | .add => .add (some path) value
  | .replace => .replace (some path) value

theorem Assignment.operation_apply (how : Assignment) :
    (how.operation path value).apply r kind resource = assignAt r kind how path value resource := by
  cases how <;> rfl

/-- A write of a sub-attribute under a value filter, at a path that selects any elements of a list
at the top of a resource, gives these elements the checked value. All else stays as it is, but for
another element that was primary, where the write marks these as primary. -/
theorem Operation.write_selected (how : Assignment)
    (ht : resolveText r kind path resource = .ok t)
    (htop : t.container = [] ∧ t.definition = some a ∧ t.sub = some sub ∧
      t.selection = .elements indices)
    (hne : indices ≠ []) (hvalue : value ≠ .null)
    (hone : ∀ v ∈ listAt resource.root a.name,
      SpelledOnce v.root sub.name ∧ SpelledOnce v.root "primary")
    (h : (how.operation path value).apply r kind resource = .ok resource') :
    ∃ root' new items', resource' = .obj root' ∧ checkValue sub value = .ok new ∧
      besides root' a.name = besides resource.root a.name ∧
      find? root' a.name = some (.arr items') ∧
      items'.length = (listAt resource.root a.name).length ∧
      ∀ i v, (listAt resource.root a.name)[i]? = some v →
        ∃ w, items'[i]? = some w ∧ Rewritten sub new (i ∈ indices) v w := by
  obtain ⟨hc, hd, hs, hsel⟩ := htop
  rw [Assignment.operation_apply] at h
  obtain ⟨t', ht', h⟩ := bind_eq_ok.mp h
  cases ht.symm.trans ht'
  rw [Json.isNull_of_ne hvalue, if_neg Bool.false_ne_true] at h
  have he := extension_of_top (resolveText_resolved ht) hd hc
  obtain ⟨root', hroot, rfl⟩ := assign_at_top how hd hc he (by cases how <;> exact h)
  obtain ⟨i, rest, rfl⟩ := List.exists_cons_of_ne_nil hne
  have hset : setSelected a sub (i :: rest) value resource.root = .ok root' := by
    cases how with
    | add => simpa only [Target.addIn, hsel, hs] using hroot
    | replace => simpa only [Target.replaceIn, hsel, hs] using hroot
  obtain ⟨new, items', hnew, rfl, hlength, heach⟩ := setSelected_eq_ok hone hset
  exact ⟨_, new, items', rfl, hnew, besides_putHeld _ _ _, find?_putHeld_self _ _ _, hlength, heach⟩

end

/-- Two mail addresses, of which the one for home is primary. -/
def homeFirst : Json :=
  .obj [("emails", .arr [.obj [("primary", .bool true), ("type", .str "home")],
    .obj [("type", .str "work")]])]

/-- The address for work becomes the primary one in place of the one for home. -/
theorem Operation.write_selected_primary : ∃ t a sub resource',
    resolveText .standard .user "emails[type eq \"work\"].primary" homeFirst = .ok t ∧
      (t.container = [] ∧ t.definition = some a ∧ t.sub = some sub ∧ t.selection = .elements [1]) ∧
      (∀ v ∈ listAt homeFirst.root a.name,
        SpelledOnce v.root sub.name ∧ SpelledOnce v.root "primary") ∧
      (Assignment.add.operation "emails[type eq \"work\"].primary" (.bool true)).apply .standard
        .user homeFirst = .ok resource' ∧
      ∃ root' items' v w, resource' = .obj root' ∧ find? root' a.name = some (.arr items') ∧
        items'[0]? = some v ∧ items'[1]? = some w ∧
        Assigned "primary" (.bool false) (.obj [("primary", .bool true), ("type", .str "home")]) v ∧
        Assigned sub.name (.bool true) (.obj [("type", .str "work")]) w := by
  obtain ⟨t, ht⟩ : ∃ t, resolveText .standard .user "emails[type eq \"work\"].primary" homeFirst =
      .ok t := exists_ok (by decide +kernel)
  have hfields : (resolveText .standard .user "emails[type eq \"work\"].primary"
      homeFirst).toOption.any (fun t => decide (t.container = [] ∧ t.selection = .elements [1]) &&
        t.definition.any (fun a => t.sub.any fun sub => decide (a.name = "emails" ∧
          sub.name = "primary" ∧ checkValue sub (.bool true) = .ok (.bool true)))) = true := by
    decide +kernel
  rw [ht] at hfields
  obtain ⟨hplace, hdefined⟩ := Bool.and_eq_true_iff.mp hfields
  obtain ⟨a, ha, hsubs⟩ := (Option.any_eq_true _ _).mp hdefined
  obtain ⟨sub, hsub, hnames⟩ := (Option.any_eq_true _ _).mp hsubs
  obtain ⟨hcontainer, hselection⟩ := of_decide_eq_true hplace
  obtain ⟨haname, hsname, hcheck⟩ := of_decide_eq_true hnames
  obtain ⟨resource', happly⟩ : ∃ resource', (Assignment.add.operation
      "emails[type eq \"work\"].primary" (.bool true)).apply .standard .user homeFirst =
        .ok resource' := exists_ok (by decide +kernel)
  have hone : ∀ v ∈ listAt homeFirst.root a.name,
      SpelledOnce v.root sub.name ∧ SpelledOnce v.root "primary" := by
    rw [haname, hsname]
    decide +kernel
  have htop : t.container = [] ∧ t.definition = some a ∧ t.sub = some sub ∧
      t.selection = .elements [1] := ⟨hcontainer, ha, hsub, hselection⟩
  obtain ⟨root', new, items', hroot, hnew, -, hitems, -, heach⟩ :=
    write_selected .add ht htop (by simp) (by simp) hone happly
  obtain rfl : .bool true = new := Except.ok.inj (hcheck.symm.trans hnew)
  have hlist : listAt homeFirst.root a.name =
      [.obj [("primary", .bool true), ("type", .str "home")], .obj [("type", .str "work")]] := by
    rw [haname]
    decide +kernel
  rw [hlist] at heach
  obtain ⟨v, hv, hhome⟩ := heach 0 _ rfl
  obtain ⟨w, hw, hwork⟩ := heach 1 _ rfl
  exact ⟨t, a, sub, resource', ht, htop, hone, happly, root', items', v, w, hroot, hitems, hv, hw,
    hhome.demoted (by simp) hsname rfl (by decide +kernel), hwork.written (by simp)⟩

end Roster
