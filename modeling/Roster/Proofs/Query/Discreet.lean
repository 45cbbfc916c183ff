import Mathlib.Data.List.Forall2
import Roster.Proofs.Projection.Versions
import Roster.Query.SortKey

/-! Filters and sort keys that do not look at what is concealed. A place says what is concealed of
the values there, and what places the names of members lead to. Two resources that differ only in
what is concealed give the same answers where a filter or a key does not follow a concealed name and
asks nothing of a value of which a part is concealed. -/

namespace Roster

/-! ### Places -/

/-- Where a value stands in a resource. At the top it may be that the version is concealed, too. -/
inductive Place where
  | resource (r : Registry) (kind : Kind) (versions : Bool)
  | extension (attributes : List Attribute)
  | value (a : Attribute)
  | metadata
  | plain

namespace Place

/-- The place of a member that has one of these definitions; none where it is never returned. -/
def among (attributes : List Attribute) (name : String) : Option Place :=
  match findAttribute? attributes name with
  | none => some .plain
  | some a => if a.isNever then none else some (.value a)

/-- The place that a name leads to; none where what is there is concealed. -/
def next? : Place → String → Option Place
  | .resource r kind versions, name =>
    if versions && sameName "meta" name then
      -- the metadata are those of the resource, and not an extension that goes by their name
      if (r.extension? kind name).isNone then some .metadata else none
    else match r.extension? kind name with
      | some s => some (.extension s.attributes)
      | none => among kind.attributes name
  | .extension attributes, name => among attributes name
  | .value a, name => if neverAmong a.subAttributes name then none else some .plain
  | .metadata, name => if sameName "version" name then none else some .plain
  | .plain, _ => some .plain

/-- The place that a list of names leads to. -/
def along? (p : Place) : List String → Option Place
  | [] => some p
  | name :: rest => (p.next? name).bind (·.along? rest)

/-- Nothing is concealed there but what leaves no trace in the value as a whole. -/
def isWhole : Place → Bool
  | .resource _ _ _ | .extension _ => false
  | .value a => a.subAttributes.all fun sub => !sub.isNever
  | .metadata | .plain => true

/-- A value without what is concealed of it. -/
def conceal : Place → Json → Json
  | .resource r kind versions, v => (r.withhold kind v).apart versions
  | .extension attributes, .obj members => .obj (members.filterMap (withholdMember attributes))
  | .extension _, v => v
  | .value a, v => a.withhold v
  | .metadata, v => v.blankMeta
  | .plain, v => v

/-- Two values that differ only in what is concealed there. -/
def Alike (p : Place) (v w : Json) : Prop :=
  p.conceal v = p.conceal w

/-- What is left of a member; none where it is concealed. -/
def keep? : Place → String × Json → Option (String × Json)
  | .resource r kind versions, m =>
    (r.withholdMember kind m).map fun n =>
      (n.1, if versions && sameName "meta" n.1 then n.2.blankMeta else n.2)
  | .extension attributes, m => withholdMember attributes m
  | .value a, m => Option.guard (fun m => !neverAmong a.subAttributes m.1) m
  | .metadata, m => some (m.1, if sameName "version" m.1 then .null else m.2)
  | .plain, m => some m

variable {p q : Place} {name : String} {v w : Json}

theorem conceal_obj (p : Place) (ms : Members Json) :
    p.conceal (.obj ms) = .obj (ms.filterMap p.keep?) := by
  cases p with
  | resource r kind versions =>
    cases versions with
    | false =>
      have hkeep : (resource r kind false).keep? = r.withholdMember kind := by
        funext m
        simp [keep?]
      rw [hkeep]
      rfl
    | true =>
      refine congrArg Json.obj ?_
      rw [List.map_filterMap]
      rfl
  | extension attributes => rfl
  | value a => exact congrArg Json.obj (congrFun List.filterMap_eq_filter ms).symm
  | metadata => exact congrArg Json.obj (congrFun List.filterMap_eq_map ms).symm
  | plain => exact congrArg Json.obj List.filterMap_some.symm

theorem withholdMember_key {r : Registry} {kind : Kind} {m n : String × Json}
    (h : r.withholdMember kind m = some n) : n.1 = m.1 := by
  unfold Registry.withholdMember at h
  split at h
  · split at h <;> cases h <;> rfl
  · exact Projection.withholdMember_key h

theorem keep?_key {m n : String × Json} (h : p.keep? m = some n) : n.1 = m.1 := by
  cases p with
  | resource r kind versions =>
    obtain ⟨n', hn', rfl⟩ := Option.map_eq_some_iff.mp h
    exact withholdMember_key (n := n') hn'
  | extension attributes => exact Projection.withholdMember_key h
  | value a =>
    obtain ⟨rfl, -⟩ := Option.guard_eq_some_iff.mp
      (show Option.guard (fun m : String × Json => !neverAmong a.subAttributes m.1) m = some n
        from h)
    rfl
  | metadata => cases h; rfl
  | plain => cases h; rfl

/-! ### What names lead to -/

theorem among_congr (attributes : List Attribute) {other : String}
    (h : sameName name other = true) : among attributes name = among attributes other := by
  rw [among, among, findAttribute?_congr attributes h]

theorem withholdMember_among {attributes : List Attribute} {m : String × Json}
    (h : among attributes m.1 = some q) :
    withholdMember attributes m = some (m.1, q.conceal m.2) := by
  rw [among] at h
  rw [withholdMember]
  cases hfind : findAttribute? attributes m.1 with
  | none =>
    rw [hfind] at h
    cases h
    rfl
  | some a =>
    rw [hfind] at h
    dsimp only at h ⊢
    split_ifs at h ⊢
    cases h
    rfl

theorem neverAmong_congr (attributes : List Attribute) {other : String}
    (h : sameName name other = true) :
    neverAmong attributes name = neverAmong attributes other := by
  rw [neverAmong, neverAmong, findAttribute?_congr attributes h]

theorem conceal_of_whole {a : Attribute} (h : (value a).isWhole = true) (v : Json) :
    (value a).conceal v = v := by
  have hspare (ms : Members Json) : a.spare ms = ms := by
    refine List.filter_eq_self.mpr fun m _ => ?_
    rw [neverAmong]
    cases hfind : findAttribute? a.subAttributes m.1 with
    | none => rfl
    | some sub => exact List.all_eq_true.mp h sub (findAttribute?_mem hfind)
  change a.withhold v = v
  cases v with
  | obj members => rw [Attribute.withhold, hspare]
  | arr items =>
    simp only [Attribute.withhold]
    refine congrArg Json.arr (List.map_id'' (fun item => ?_) items)
    cases item <;> simp only [hspare]
  | _ => rfl

/-- The metadata of a resource have no part that is never returned. -/
theorem among_meta (kind : Kind) (h : sameName "meta" name = true) :
    ∃ a, among kind.attributes name = some (.value a) ∧ (value a).isWhole = true := by
  have hmeta : (findAttribute? kind.attributes "meta").any
      (fun a => !a.isNever && (value a).isWhole) = true := by
    cases kind <;> decide
  obtain ⟨a, hfind, ha⟩ := Option.any_eq_true _ _ |>.mp hmeta
  rw [Bool.and_eq_true, Bool.not_eq_true'] at ha
  refine ⟨a, ?_, ha.2⟩
  rw [← among_congr kind.attributes h, among, hfind]
  simp [ha.1]

theorem extension?_congr (r : Registry) (kind : Kind) {other : String}
    (h : sameName name other = true) : r.extension? kind name = r.extension? kind other := by
  have hp : (fun e : Extension => e.kind == kind && sameName e.schema.id name) =
      fun e => e.kind == kind && sameName e.schema.id other := by
    funext e
    rw [Bool.eq_iff_iff, Bool.and_eq_true, Bool.and_eq_true, sameName_iff, sameName_iff,
      sameName_iff.mp h]
  rw [Registry.extension?, Registry.extension?, hp]

theorem withholdMember_extension {r : Registry} {kind : Kind} {m : String × Json} {s : Schema}
    (h : r.extension? kind m.1 = some s) :
    r.withholdMember kind m = some (m.1, (extension s.attributes).conceal m.2) := by
  rw [Registry.withholdMember, h]
  obtain ⟨key, v⟩ := m
  cases v <;> rfl

theorem withholdMember_attribute {r : Registry} {kind : Kind} {m : String × Json}
    (h : r.extension? kind m.1 = none) (hq : among kind.attributes m.1 = some q) :
    r.withholdMember kind m = some (m.1, q.conceal m.2) := by
  rw [Registry.withholdMember, h]
  exact withholdMember_among hq

/-- A member whose name leads to a place is kept, without what is concealed there. -/
theorem keep?_next (h : p.next? name = some q) {m : String × Json}
    (hname : sameName name m.1 = true) : p.keep? m = some (m.1, q.conceal m.2) := by
  cases p with
  | resource r kind versions =>
    have hmeta : sameName "meta" m.1 = sameName "meta" name := by
      rw [Bool.eq_iff_iff, sameName_iff, sameName_iff, sameName_iff.mp hname]
    simp only [next?, extension?_congr r kind hname, ← hmeta] at h
    change (r.withholdMember kind m).map _ = _
    -- the metadata is a place of its own where versions are left out, and stays an attribute else
    cases hversion : versions && sameName "meta" m.1 with
    | true =>
      rw [if_pos hversion] at h
      split_ifs at h with hnone
      cases h
      rw [Option.isNone_iff_eq_none] at hnone
      rw [Bool.and_eq_true] at hversion
      obtain ⟨a, ha, hwhole⟩ := among_meta kind hversion.2
      rw [withholdMember_attribute hnone ha, conceal_of_whole hwhole]
      simp [hversion, conceal]
    | false =>
      rw [if_neg (ne_true_of_eq_false hversion)] at h
      cases hs : r.extension? kind m.1 with
      | some s =>
        rw [hs] at h
        cases h
        simp only [withholdMember_extension hs, Option.map_some, hversion, Bool.false_eq_true,
          if_false]
      | none =>
        rw [hs, among_congr _ hname] at h
        simp only [withholdMember_attribute hs h, Option.map_some, hversion, Bool.false_eq_true,
          if_false]
  | extension attributes => exact withholdMember_among ((among_congr attributes hname).symm.trans h)
  | value a =>
    simp only [next?, neverAmong_congr _ hname] at h
    split_ifs at h with hnever
    cases h
    simp [keep?, conceal, hnever]
  | metadata =>
    simp only [next?] at h
    split_ifs at h with hversion
    cases h
    have hother : sameName "version" m.1 = false := by
      rw [Bool.eq_false_iff]
      intro hsame
      rw [sameName_comm] at hname
      exact hversion (sameName_trans hsame hname)
    simp [keep?, conceal, hother]
  | plain =>
    cases h
    rfl

/-- A value that is no object has no members, and neither has what is not concealed of it. -/
theorem members?_conceal (p : Place) (v : Json) :
    (p.conceal v).members? = v.members?.map (List.filterMap p.keep?) := by
  cases v with
  | obj members =>
    rw [conceal_obj]
    rfl
  | _ =>
    cases p with
    | resource r kind versions => cases versions <;> rfl
    | _ => rfl

theorem member?_conceal (h : p.next? name = some q) (v : Json) :
    (p.conceal v).member? name = (v.member? name).map q.conceal := by
  rw [Json.member?, Json.member?, members?_conceal]
  cases v.members? with
  | none => rfl
  | some ms => exact Members.find?_filterMap (fun _ _ => keep?_key) fun m => keep?_next h

theorem get?_conceal (h : p.next? name = some q) (v : Json) :
    (p.conceal v).get? name = (v.get? name).map q.conceal := by
  rw [Json.get?, Json.get?, members?_conceal]
  cases v.members? with
  | none => rfl
  | some ms =>
    exact Members.get?_filterMap (fun _ _ => keep?_key) fun x => keep?_next h (sameName_refl name)

theorem Alike.member? (h : p.next? name = some q) (hv : p.Alike v w) :
    Option.Rel q.Alike (v.member? name) (w.member? name) := by
  have heq : (v.member? name).map q.conceal = (w.member? name).map q.conceal := by
    rw [← member?_conceal h, ← member?_conceal h, hv]
  cases hx : v.member? name <;> cases hy : w.member? name
  · exact .none
  · simp [hx, hy] at heq
  · simp [hx, hy] at heq
  · rw [hx, hy] at heq
    exact .some (Option.some.inj heq)

/-! ### Lists -/

/-- What is left of an item of a list of values. -/
def concealItem : Place → Json → Json
  | .value a, .obj members => .obj (a.spare members)
  | _, v => v

theorem items?_conceal (p : Place) (v : Json) :
    (p.conceal v).items? = v.items?.map (List.map p.concealItem) := by
  have hitems (h : p.concealItem = id) (items : List Json) : items.map p.concealItem = items := by
    rw [h, List.map_id]
  cases p with
  | value a =>
    cases v with
    | arr items =>
      refine congrArg some (List.map_congr_left fun item _ => ?_)
      cases item <;> rfl
    | _ => rfl
  | resource r kind versions =>
    rw [conceal, Json.items?_apart]
    cases v <;> simp [Registry.withhold, Json.items?, hitems rfl]
  | extension attributes => cases v <;> simp [conceal, Json.items?, hitems rfl]
  | metadata => cases v <;> simp [conceal, Json.blankMeta, Json.mapMembers, Json.items?, hitems rfl]
  | plain => cases v <;> simp [conceal, Json.items?, hitems rfl]

theorem alike_of_concealItem (h : p.concealItem v = p.concealItem w) : p.Alike v w := by
  cases p with
  | value a =>
    cases v <;> cases w <;> simp_all [concealItem, Alike, conceal, Attribute.withhold]
  | _ => exact congrArg _ h

theorem flatten_eq (v : Json) : v.flatten = v.items?.getD [v] := by
  cases v <;> rfl

theorem Alike.flatten (h : p.Alike v w) : List.Forall₂ p.Alike v.flatten w.flatten := by
  have hitems : v.items?.map (List.map p.concealItem) = w.items?.map (List.map p.concealItem) := by
    rw [← items?_conceal, ← items?_conceal, h]
  rw [flatten_eq, flatten_eq]
  cases hv : v.items? <;> cases hw : w.items?
  · exact .cons h .nil
  · simp [hv, hw] at hitems
  · simp [hv, hw] at hitems
  · rw [hv, hw] at hitems
    have hsame : List.Forall₂ Eq _ _ := List.forall₂_eq_eq_eq ▸ Option.some.inj hitems
    rw [List.forall₂_map_left_iff, List.forall₂_map_right_iff] at hsame
    exact hsame.imp fun x y => alike_of_concealItem

/-! ### What is asked of values -/

end Place

/-- The value itself, unless it is a list or an object. -/
def Json.scalar? : Json → Option Json
  | .arr _ | .obj _ => none
  | v => some v

/-- No question tells the values apart: both are assigned or none is, and they are the same if one
of them is no list and no object. -/
def Json.Similar (v w : Json) : Prop :=
  v.isPresent = w.isPresent ∧ v.scalar? = w.scalar?

namespace Place

variable {p q : Place} {name : String} {v w : Json}

theorem similar_conceal (h : p.isWhole = true) (v : Json) : (p.conceal v).Similar v := by
  cases p with
  | value a => rw [conceal_of_whole h]; exact ⟨rfl, rfl⟩
  | metadata =>
    cases v with
    | obj members => exact ⟨by simp [conceal, Json.blankMeta, Json.mapMembers, Json.isPresent], rfl⟩
    | _ => exact ⟨rfl, rfl⟩
  | plain => exact ⟨rfl, rfl⟩
  | _ => cases h

theorem Alike.similar (hp : p.isWhole = true) (h : p.Alike v w) : v.Similar w := by
  obtain ⟨hv, hv'⟩ := similar_conceal hp v
  obtain ⟨hw, hw'⟩ := similar_conceal hp w
  rw [← h] at hw hw'
  exact ⟨hv.symm.trans hw, hv'.symm.trans hw'⟩

end Place

/-! ### Questions about values -/

section Similar

variable {v w : Json} {vs ws : List Json}

theorem TypedValue.orderFrom?_scalar (literal : TypedValue) (caseExact : Bool) (v : Json) :
    literal.orderFrom? caseExact v = v.scalar?.bind (literal.orderFrom? caseExact) := by
  cases v with
  | arr items => cases literal <;> rfl
  | obj members => cases literal <;> rfl
  | _ => rfl

theorem TypedValue.ofJson?_scalar (type : AttributeType) (v : Json) :
    TypedValue.ofJson? type v = v.scalar?.bind (TypedValue.ofJson? type) := by
  cases v with
  | arr items => cases type <;> rfl
  | obj members => cases type <;> rfl
  | _ => rfl

theorem TypedValue.test_scalar (literal : TypedValue) (op : CompareOp) (caseExact : Bool)
    (v : Json) : literal.test op caseExact v = v.scalar?.any (literal.test op caseExact) := by
  cases v with
  | arr items =>
    cases literal <;> simp [test, orderFrom?, Json.scalar?, Json.string?, Json.bool?, Json.int64?,
      Json.number?, Json.decimal?, Json.instant?]
  | obj members =>
    cases literal <;> simp [test, orderFrom?, Json.scalar?, Json.string?, Json.bool?, Json.int64?,
      Json.number?, Json.decimal?, Json.instant?]
  | _ => rfl

theorem any_eq_of_forall₂ {α β : Type} {R : α → β → Prop} {f : α → Bool} {g : β → Bool}
    {xs : List α} {ys : List β} (h : List.Forall₂ R xs ys) (hfg : ∀ x y, R x y → f x = g y) :
    xs.any f = ys.any g := by
  induction h with
  | nil => rfl
  | cons hxy _ ih => rw [List.any_cons, List.any_cons, hfg _ _ hxy, ih]

/-- A comparison is made of the values alone that are no lists and no objects. -/
theorem compareAny_congr (h : List.Forall₂ Json.Similar vs ws) (op : CompareOp)
    (literal : TypedValue) (caseExact : Bool) :
    compareAny op literal caseExact vs = compareAny op literal caseExact ws := by
  have hpresent : vs.any Json.isPresent = ws.any Json.isPresent :=
    any_eq_of_forall₂ h fun v w hvw => hvw.1
  have htest (op : CompareOp) :
      vs.any (literal.test op caseExact) = ws.any (literal.test op caseExact) := by
    refine any_eq_of_forall₂ h fun v w hvw => ?_
    rw [literal.test_scalar, hvw.2, ← literal.test_scalar]
  unfold compareAny
  split <;> simp only [hpresent, htest]

end Similar

/-! ### Conditions -/

/-- The condition follows no concealed name, and asks nothing of a value of which a part is
concealed. -/
def Condition.isDiscreet : Condition → Place → Bool
  | .compare keys _ _ _, p => (p.along? keys).any Place.isWhole
  | .present keys, p => (p.along? keys).any Place.isWhole
  | .any keys inner, p => (p.along? keys).any fun q => inner.isDiscreet q
  | .and f g, p => f.isDiscreet p && g.isDiscreet p
  | .or f g, p => f.isDiscreet p && g.isDiscreet p
  | .not f, p => f.isDiscreet p

section Conditions

variable {p q : Place} {name : String} {keys : List String} {v w : Json} {vs ws : List Json}

theorem Place.Alike.reach (h : p.next? name = some q) (hv : p.Alike v w) :
    List.Forall₂ q.Alike (((v.member? name).map Json.flatten).getD [])
      (((w.member? name).map Json.flatten).getD []) := by
  have hmember := hv.member? h
  revert hmember
  generalize v.member? name = x
  generalize w.member? name = y
  rintro (hxy | _)
  · exact hxy.flatten
  · exact .nil

/-- Names that are followed in values that are alike lead to values that are alike. -/
theorem Place.forall₂_collect (h : p.along? keys = some q) (hvs : List.Forall₂ p.Alike vs ws) :
    List.Forall₂ q.Alike (Json.collect vs keys) (Json.collect ws keys) := by
  induction keys generalizing p vs ws with
  | nil =>
    cases h
    exact hvs
  | cons name rest ih =>
    obtain ⟨next, hnext, hrest⟩ := Option.bind_eq_some_iff.mp h
    exact ih hrest (List.rel_flatMap hvs fun _ _ hv => hv.reach hnext)

theorem Place.forall₂_similar (h : (p.along? keys).any Place.isWhole = true) (hv : p.Alike v w) :
    List.Forall₂ Json.Similar (Json.collect [v] keys) (Json.collect [w] keys) := by
  obtain ⟨q, hq, hwhole⟩ := Option.any_eq_true _ _ |>.mp h
  exact (forall₂_collect hq (.cons hv .nil)).imp fun _ _ hxy => hxy.similar hwhole

/-- A discreet condition holds of both of two values that are alike, or of none. -/
theorem Condition.holds_congr (f : Condition) (h : f.isDiscreet p = true) (hv : p.Alike v w) :
    f.holds v = f.holds w := by
  induction f generalizing p v w with
  | compare keys op literal caseExact =>
    exact compareAny_congr (Place.forall₂_similar h hv) op literal caseExact
  | present keys => exact any_eq_of_forall₂ (Place.forall₂_similar h hv) fun v w hvw => hvw.1
  | any keys inner ih =>
    obtain ⟨q, hq, hinner⟩ := Option.any_eq_true _ _ |>.mp h
    exact any_eq_of_forall₂ (Place.forall₂_collect hq (.cons hv .nil)) fun v w hvw => ih hinner hvw
  | and f g ihf ihg =>
    rw [isDiscreet, Bool.and_eq_true] at h
    rw [holds, holds, ihf h.1 hv, ihg h.2 hv]
  | or f g ihf ihg =>
    rw [isDiscreet, Bool.and_eq_true] at h
    rw [holds, holds, ihf h.1 hv, ihg h.2 hv]
  | not f ih => rw [holds, holds, ih h hv]

end Conditions

/-! ### Queries -/

/-- The place that a step leads to; none where it is not discreet. -/
def Step.next? : Step → Place → Option Place
  | .extension urn, p => p.next? urn
  | .attribute name filter, p =>
    (p.next? name).filter fun q => filter.all fun f => f.isDiscreet q
  | .test f, p => if f.isDiscreet p then some p else none

/-- Each step of the query is discreet where the ones before it lead to. -/
def Query.isDiscreet (q : Query) (p : Place) : Bool :=
  (q.steps.foldlM (fun p (s : Step) => s.next? p) p).isSome

section Queries

variable {p q : Place} {v w : Json} {vs ws : List Json}

theorem forall₂_filter {α β : Type} {R : α → β → Prop} {f : α → Bool} {g : β → Bool}
    {xs : List α} {ys : List β} (h : List.Forall₂ R xs ys) (hfg : ∀ x y, R x y → f x = g y) :
    List.Forall₂ R (xs.filter f) (ys.filter g) := by
  induction h with
  | nil => exact .nil
  | @cons x y xs ys hxy _ ih =>
    rw [List.filter_cons, List.filter_cons, hfg x y hxy]
    split_ifs
    · exact .cons hxy ih
    · exact ih

theorem Step.forall₂_advance {s : Step} (h : s.next? p = some q)
    (hvs : List.Forall₂ p.Alike vs ws) : List.Forall₂ q.Alike (s.advance vs) (s.advance ws) := by
  match s, h with
  | .extension urn, h => exact List.rel_filterMap (fun _ _ hv => hv.member? h) hvs
  | .attribute name filter, h =>
    obtain ⟨hnext, hfilter⟩ := Option.filter_eq_some_iff.mp h
    have hreached := List.rel_flatMap hvs fun _ _ hv => hv.reach hnext
    cases filter with
    | none => exact hreached
    | some f => exact forall₂_filter hreached fun _ _ hv => f.holds_congr hfilter hv
  | .test f, h =>
    simp only [next?] at h
    split_ifs at h with hf
    cases h
    exact forall₂_filter hvs fun _ _ hv => f.holds_congr hf hv

/-- A discreet query is satisfied by both of two resources that are alike, or by none. -/
theorem Query.holds_congr (query : Query) (h : query.isDiscreet p = true) (hv : p.Alike v w) :
    query.holds v = query.holds w := by
  have hrun (steps : List Step) (p : Place) (vs ws : List Json)
      (h : (steps.foldlM (fun p (s : Step) => s.next? p) p).isSome = true)
      (hvs : List.Forall₂ p.Alike vs ws) :
      (steps.foldl Step.advance vs).isEmpty = (steps.foldl Step.advance ws).isEmpty := by
    induction steps generalizing p vs ws with
    | nil => cases hvs <;> rfl
    | cons s rest ih =>
      rw [List.foldlM_cons] at h
      obtain ⟨last, hlast⟩ := Option.isSome_iff_exists.mp h
      obtain ⟨q, hq, hrest⟩ := Option.bind_eq_some_iff.mp hlast
      exact ih q _ _ (by rw [hrest]; rfl) (Step.forall₂_advance hq hvs)
  exact congrArg not (hrun query.steps p [v] [w] h (.cons hv .nil))

end Queries

/-! ### Sort keys -/

namespace SortKey

/-- The key follows no concealed name, and asks nothing of a value of which a part is concealed. -/
def isDiscreet (k : SortKey) (p : Place) : Bool :=
  (p.along? k.keys).any Place.isWhole

variable {k : SortKey} {p : Place} {v w v' w' : Json}

theorem firstValue?_similar (h : k.isDiscreet p = true) (hv : p.Alike v w) :
    Option.Rel Json.Similar (k.firstValue? v) (k.firstValue? w) := by
  have hvalues := Place.forall₂_similar h hv
  unfold firstValue?
  generalize Json.collect [v] k.keys = vs at hvalues ⊢
  generalize Json.collect [w] k.keys = ws at hvalues ⊢
  induction hvalues with
  | nil => exact .none
  | @cons x y xs ys hxy _ ih =>
    rw [List.find?_cons, List.find?_cons, ← hxy.1]
    cases x.isPresent with
    | true => exact .some hxy
    | false => exact ih

theorem isReadable_congr (h : k.isDiscreet p = true) (hv : p.Alike v w) :
    k.isReadable v = k.isReadable w := by
  have hfirst := firstValue?_similar h hv
  unfold isReadable
  revert hfirst
  generalize k.firstValue? v = x
  generalize k.firstValue? w = y
  rintro (hxy | _)
  · simp only [Option.all_some]
    rw [TypedValue.ofJson?_scalar, hxy.2, ← TypedValue.ofJson?_scalar]
  · rfl

/-- A discreet key orders resources as it orders those that are alike. -/
theorem order_congr (h : k.isDiscreet p = true) (hv : p.Alike v v') (hw : p.Alike w w') :
    k.order v w = k.order v' w' := by
  have hleft := firstValue?_similar h hv
  have hright := firstValue?_similar h hw
  unfold order
  revert hleft hright
  generalize k.firstValue? v = x
  generalize k.firstValue? v' = x'
  generalize k.firstValue? w = y
  generalize k.firstValue? w' = y'
  rintro (@⟨x, x', hx⟩ | _) (@⟨y, y', hy⟩ | _)
  · have hread : TypedValue.ofJson? k.traits.type y = TypedValue.ofJson? k.traits.type y' := by
      rw [TypedValue.ofJson?_scalar, hy.2, ← TypedValue.ofJson?_scalar]
    have horder (read : TypedValue) :
        read.orderFrom? k.traits.caseExact x = read.orderFrom? k.traits.caseExact x' := by
      rw [read.orderFrom?_scalar, hx.2, ← read.orderFrom?_scalar]
    simp only [hread, horder]
  · rfl
  · rfl
  · rfl

end SortKey

end Roster
