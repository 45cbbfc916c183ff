import Mathlib.Data.List.Nodup
import Roster.Proofs.Json
import Roster.Proofs.Patch.Objects
import Roster.Proofs.Query.Discreet
import Roster.Proofs.Text.Lowercase

/-! Filters and sort keys do not look at the letter case of names. Where no object has two names
that are the same but for case, a resource satisfies a query if the one with its names in lower case
does, and stands where that one stands in the order of a key. -/

namespace Roster

/-! ### Names told apart -/

namespace Members

variable {α : Type} {ms : Members α} {name : String} {v : α}

/-- No two names are the same but for letter case. -/
def Distinct (ms : Members α) : Prop :=
  (ms.map fun m => foldCase m.1).Nodup

instance (ms : Members α) : Decidable (Distinct ms) :=
  inferInstanceAs (Decidable (List.Nodup _))

theorem Distinct.nodup_keys (h : Distinct ms) : (keys ms).Nodup :=
  List.Nodup.of_map foldCase (by simpa [keys, Distinct, Function.comp_def] using h)

/-- What is found for a name is held under a spelling of it, wherever in the object it stands. -/
theorem Distinct.find?_eq_some_iff (h : Distinct ms) :
    find? ms name = some v ↔ ∃ key, sameName name key = true ∧ (key, v) ∈ ms := by
  refine ⟨mem_of_find?, ?_⟩
  rintro ⟨key, hkey, hmem⟩
  obtain ⟨w, hw⟩ := Option.isSome_iff_exists.mp
    (find?_isSome.mpr ⟨key, List.mem_map_of_mem hmem, hkey⟩)
  obtain ⟨held, hheld, hw'⟩ := mem_of_find? hw
  have hsame : foldCase key = foldCase held :=
    (sameName_iff.mp hkey).symm.trans (sameName_iff.mp hheld)
  cases List.inj_on_of_nodup_map h hmem hw' hsame
  exact hw

end Members

open Members

instance (v : Json) : Decidable (v.AllObjects Distinct) :=
  inferInstanceAs (Decidable (∀ ms ∈ v.objects, Distinct ms))

/-- A name with A-Z written as a-z. -/
def lowerName (name : String) : String :=
  String.ofList (foldCase name)

@[simp] theorem foldCase_lowerName (name : String) : foldCase (lowerName name) = foldCase name := by
  simp [lowerName, foldCase, Function.comp_def]

namespace Json

mutual

/-- The value with the names in lower case at every depth. -/
def lowered (v : Json) : Json :=
  match v with
  | .arr items => .arr (loweredItems items)
  | .obj members => .obj (Members.ofList (loweredMembers members))
  | v => v

def loweredItems (items : List Json) : List Json :=
  match items with
  | [] => []
  | v :: rest => v.lowered :: loweredItems rest

def loweredMembers (members : List (String × Json)) : List (String × Json) :=
  match members with
  | [] => []
  | (k, v) :: rest => (lowerName k, v.lowered) :: loweredMembers rest

end

/-- Two values that differ only in the letter case of names. -/
def Recased (v w : Json) : Prop :=
  v.lowered = w.lowered

variable {v : Json} {ms : Members Json} {name : String}

theorem loweredItems_eq (items : List Json) : loweredItems items = items.map lowered := by
  induction items with
  | nil => rfl
  | cons v rest ih => rw [loweredItems, List.map_cons, ih]

theorem loweredMembers_eq (ms : Members Json) :
    loweredMembers ms = ms.map fun m => (lowerName m.1, m.2.lowered) := by
  induction ms with
  | nil => rfl
  | cons m rest ih => rw [loweredMembers, List.map_cons, ih]

theorem distinct_loweredMembers (h : Distinct ms) : Distinct (loweredMembers ms) := by
  simpa [Distinct, loweredMembers_eq, Function.comp_def] using h

theorem mem_ofList_lowered (h : Distinct ms) {m : String × Json} :
    m ∈ ofList (loweredMembers ms) ↔ ∃ n ∈ ms, (lowerName n.1, n.2.lowered) = m := by
  rw [mem_ofList (distinct_loweredMembers h).nodup_keys, loweredMembers_eq, List.mem_map]

/-- The order of the members changes with the case of their names, and what is found does not. -/
theorem find?_lowered (h : Distinct ms) (name : String) :
    find? (ofList (loweredMembers ms)) name = (find? ms name).map lowered := by
  have hlow := distinct_loweredMembers h
  have hperm : (ofList (loweredMembers ms)).Perm (loweredMembers ms) :=
    (List.perm_ext_iff_of_nodup (List.Nodup.of_map Prod.fst (nodup_keys (sorted_ofList _)))
      (List.Nodup.of_map Prod.fst hlow.nodup_keys)).mpr fun m => mem_ofList hlow.nodup_keys
  have hdistinct : Distinct (ofList (loweredMembers ms)) :=
    (hperm.map _).nodup_iff.mpr hlow
  refine Option.ext fun w => ?_
  rw [hdistinct.find?_eq_some_iff, Option.map_eq_some_iff]
  constructor
  · rintro ⟨key, hkey, hmem⟩
    obtain ⟨m, hm, hw⟩ := (mem_ofList_lowered h).mp hmem
    cases hw
    refine ⟨m.2, h.find?_eq_some_iff.mpr ⟨m.1, ?_, hm⟩, rfl⟩
    simpa [sameName_iff] using hkey
  · rintro ⟨v, hv, rfl⟩
    obtain ⟨key, hkey, hm⟩ := h.find?_eq_some_iff.mp hv
    refine ⟨lowerName key, ?_, (mem_ofList_lowered h).mpr ⟨_, hm, rfl⟩⟩
    simpa [sameName_iff] using hkey

theorem member?_lowered (h : v.AllObjects Distinct) (name : String) :
    v.lowered.member? name = (v.member? name).map lowered := by
  cases v with
  | obj ms => exact find?_lowered (allObjects_obj.mp h).1 name
  | _ => rfl

theorem flatten_lowered (v : Json) : v.lowered.flatten = v.flatten.map lowered := by
  cases v with
  | arr items => exact loweredItems_eq items
  | _ => rfl

theorem isEmpty_lowered (ms : Members Json) :
    (ofList (loweredMembers ms)).isEmpty = ms.isEmpty := by
  cases ms with
  | nil => rfl
  | cons m rest =>
    have hfirst : (lowerName m.1, m.2.lowered) ∈ loweredMembers (m :: rest) := List.mem_cons_self
    obtain ⟨v, hv⟩ := exists_mem_ofList hfirst
    rw [List.isEmpty_eq_false_iff.mpr (List.ne_nil_of_mem hv)]
    rfl

mutual

theorem isPresent_lowered : (v : Json) → v.lowered.isPresent = v.isPresent
  | .arr items => anyPresent_lowered items
  | .obj members => congrArg not (isEmpty_lowered members)
  | .null | .bool _ | .num _ | .str _ => rfl

theorem anyPresent_lowered : (items : List Json) →
    anyPresent (loweredItems items) = anyPresent items
  | [] => rfl
  | v :: rest => by
    rw [loweredItems, anyPresent, anyPresent, isPresent_lowered v, anyPresent_lowered rest]

end

theorem similar_lowered (v : Json) : v.lowered.Similar v := by
  refine ⟨isPresent_lowered v, ?_⟩
  cases v <;> rfl

/-! ### What names lead to -/

theorem AllObjects.member? (h : v.AllObjects Distinct) :
    ∀ w ∈ v.member? name, w.AllObjects Distinct := by
  intro w hw
  cases v with
  | obj ms =>
    obtain ⟨key, -, hmem⟩ := mem_of_find? hw
    exact (allObjects_obj.mp h).2 _ hmem
  | _ => cases hw

theorem AllObjects.flatten (h : v.AllObjects Distinct) :
    ∀ w ∈ v.flatten, w.AllObjects Distinct := by
  cases v with
  | arr items => exact allObjects_arr.mp h
  | _ => simpa [Json.flatten] using h

end Json

open Json

variable {v w : Json} {vs : List Json}

/-- The values that one name leads to. -/
theorem reach_lowered (h : v.AllObjects Distinct) (name : String) :
    ((v.lowered.member? name).map Json.flatten).getD [] =
      (((v.member? name).map Json.flatten).getD []).map lowered := by
  rw [member?_lowered h]
  cases v.member? name with
  | none => rfl
  | some w => exact flatten_lowered w

theorem reach_distinct (h : v.AllObjects Distinct) (name : String) :
    ∀ w ∈ ((v.member? name).map Json.flatten).getD [], w.AllObjects Distinct := by
  intro w hw
  cases hmember : v.member? name with
  | none => simp [hmember] at hw
  | some x =>
    rw [hmember] at hw
    exact (h.member? x hmember).flatten w hw

/-- One step of reaching members: of all values, and distinct again. -/
theorem reachAll_lowered (h : ∀ v ∈ vs, v.AllObjects Distinct) (name : String) :
    ((vs.map lowered).flatMap fun v => ((v.member? name).map Json.flatten).getD []) =
      (vs.flatMap fun v => ((v.member? name).map Json.flatten).getD []).map lowered := by
  rw [List.flatMap_map, List.map_flatMap]
  exact List.flatMap_congr fun v hv => reach_lowered (h v hv) name

theorem reachAll_distinct (h : ∀ v ∈ vs, v.AllObjects Distinct) (name : String) :
    ∀ w ∈ vs.flatMap fun v => ((v.member? name).map Json.flatten).getD [],
      w.AllObjects Distinct := by
  intro w hw
  obtain ⟨v, hv, hw⟩ := List.mem_flatMap.mp hw
  exact reach_distinct (h v hv) name w hw

theorem collect_lowered (h : ∀ v ∈ vs, v.AllObjects Distinct) (keys : List String) :
    Json.collect (vs.map lowered) keys = (Json.collect vs keys).map lowered ∧
      ∀ w ∈ Json.collect vs keys, w.AllObjects Distinct := by
  induction keys generalizing vs with
  | nil => exact ⟨rfl, h⟩
  | cons name rest ih =>
    rw [Json.collect, Json.collect, reachAll_lowered h]
    exact ih (reachAll_distinct h name)

theorem forall₂_lowered (vs : List Json) : List.Forall₂ Json.Similar (vs.map lowered) vs :=
  List.forall₂_map_left_iff.mpr (List.forall₂_same.mpr fun v _ => similar_lowered v)

/-! ### Conditions -/

theorem any_lowered {f : Json → Bool} (h : ∀ v ∈ vs, f v.lowered = f v) :
    (vs.map lowered).any f = vs.any f := by
  induction vs with
  | nil => rfl
  | cons v rest ih =>
    rw [List.map_cons, List.any_cons, List.any_cons, h v List.mem_cons_self,
      ih fun w hw => h w (List.mem_cons_of_mem v hw)]

/-- A condition holds of a value and of that value in lower case, or of neither. -/
theorem Condition.holds_lowered (f : Condition) (h : v.AllObjects Distinct) :
    f.holds v.lowered = f.holds v := by
  have hcollect {v : Json} (h : v.AllObjects Distinct) (keys : List String) :
      Json.collect [v.lowered] keys = (Json.collect [v] keys).map lowered ∧
        ∀ w ∈ Json.collect [v] keys, w.AllObjects Distinct :=
    collect_lowered (List.forall_mem_singleton.mpr h) keys
  induction f generalizing v with
  | compare keys op literal caseExact =>
    rw [holds, holds, (hcollect h keys).1]
    exact compareAny_congr (forall₂_lowered _) op literal caseExact
  | present keys =>
    rw [holds, holds, (hcollect h keys).1]
    exact any_lowered fun w _ => isPresent_lowered w
  | any keys inner ih =>
    rw [holds, holds, (hcollect h keys).1]
    exact any_lowered fun w hw => ih ((hcollect h keys).2 w hw)
  | and f g ihf ihg => rw [holds, holds, ihf h, ihg h]
  | or f g ihf ihg => rw [holds, holds, ihf h, ihg h]
  | not f ih => rw [holds, holds, ih h]

theorem filter_lowered (f : Condition) (h : ∀ v ∈ vs, v.AllObjects Distinct) :
    (vs.map lowered).filter f.holds = (vs.filter f.holds).map lowered := by
  rw [List.filter_map]
  exact congrArg _ (List.filter_congr fun v hv => f.holds_lowered (h v hv))

/-! ### Queries -/

/-- A step leads from values in lower case to those that it leads to, in lower case. -/
theorem Step.advance_lowered (s : Step) (h : ∀ v ∈ vs, v.AllObjects Distinct) :
    s.advance (vs.map lowered) = (s.advance vs).map lowered ∧
      ∀ w ∈ s.advance vs, w.AllObjects Distinct := by
  match s with
  | .extension urn =>
    constructor
    · rw [advance, advance, List.filterMap_map, List.map_filterMap]
      exact List.filterMap_congr fun v hv => member?_lowered (h v hv) urn
    · intro w hw
      obtain ⟨v, hv, hmember⟩ := List.mem_filterMap.mp hw
      exact (h v hv).member? w hmember
  | .attribute name filter =>
    have hreach := reachAll_lowered h name
    have hdistinct := reachAll_distinct h name
    cases filter with
    | none => exact ⟨hreach, hdistinct⟩
    | some f =>
      refine ⟨?_, fun w hw => hdistinct w (List.mem_of_mem_filter hw)⟩
      simp only [advance]
      rw [hreach, filter_lowered f hdistinct]
  | .test f => exact ⟨filter_lowered f h, fun w hw => h w (List.mem_of_mem_filter hw)⟩

theorem Query.holds_lowered (q : Query) (h : v.AllObjects Distinct) :
    q.holds v.lowered = q.holds v := by
  have hrun (steps : List Step) (vs : List Json) (h : ∀ v ∈ vs, v.AllObjects Distinct) :
      steps.foldl Step.advance (vs.map lowered) = (steps.foldl Step.advance vs).map lowered := by
    induction steps generalizing vs with
    | nil => rfl
    | cons s rest ih =>
      obtain ⟨hadvance, hdistinct⟩ := s.advance_lowered h
      rw [List.foldl_cons, List.foldl_cons, hadvance, ih _ hdistinct]
  have hselect := hrun q.steps [v] (List.forall_mem_singleton.mpr h)
  rw [holds, holds, select, select, show [v.lowered] = [v].map lowered from rfl, hselect,
    List.isEmpty_map]

/-! ### Sort keys -/

namespace SortKey

theorem firstValue?_lowered (k : SortKey) (h : v.AllObjects Distinct) :
    k.firstValue? v.lowered = (k.firstValue? v).map lowered := by
  have hcollect := (collect_lowered (List.forall_mem_singleton.mpr h) k.keys).1
  rw [firstValue?, firstValue?, show [v.lowered] = [v].map lowered from rfl, hcollect,
    List.find?_map]
  exact congrArg _ (congrArg (List.find? · _) (funext isPresent_lowered))

theorem order_lowered_left (k : SortKey) (h : v.AllObjects Distinct) (c : Json) :
    k.order v.lowered c = k.order v c := by
  rw [order, order, firstValue?_lowered k h]
  cases k.firstValue? v with
  | none => rfl
  | some x =>
    cases k.firstValue? c with
    | none => rfl
    | some y =>
      have hread (read : TypedValue) : read.orderFrom? k.traits.caseExact x.lowered =
          read.orderFrom? k.traits.caseExact x := by
        rw [read.orderFrom?_scalar, (similar_lowered x).2, ← read.orderFrom?_scalar]
      simp only [Option.map_some, hread]

theorem order_lowered_right (k : SortKey) (h : v.AllObjects Distinct) (c : Json) :
    k.order c v.lowered = k.order c v := by
  rw [order, order, firstValue?_lowered k h]
  cases k.firstValue? c with
  | none => cases k.firstValue? v <;> rfl
  | some x =>
    cases k.firstValue? v with
    | none => rfl
    | some y =>
      simp only [Option.map_some]
      rw [TypedValue.ofJson?_scalar, (similar_lowered y).2, ← TypedValue.ofJson?_scalar]

end SortKey

/-- Of two resources that differ only in the letter case of names, both satisfy a filter or neither
does, and a key orders both alike against any third. -/
theorem holds_recased (v w : Json) (hv : v.AllObjects Distinct) (hw : w.AllObjects Distinct)
    (h : v.Recased w) :
    (∀ q : Query, q.holds v = q.holds w) ∧ (∀ f : Condition, f.holds v = f.holds w) ∧
      ∀ (k : SortKey) (other : Json),
        k.order v other = k.order w other ∧ k.order other v = k.order other w := by
  refine ⟨fun q => ?_, fun f => ?_, fun k other => ⟨?_, ?_⟩⟩
  · rw [← q.holds_lowered hv, h, q.holds_lowered hw]
  · rw [← f.holds_lowered hv, h, f.holds_lowered hw]
  · rw [← k.order_lowered_left hv, h, k.order_lowered_left hw]
  · rw [← k.order_lowered_right hv, h, k.order_lowered_right hw]

/-- The spelling of names is another in the second resource, and so is their order. -/
theorem holds_recased_mails :
    let v : Json := .obj [("emails", .arr [.obj [("type", .str "work"), ("value", .str "A")],
      .obj [("Type", .str "home"), ("Value", .str "b")]]), ("userName", .str "bj")]
    let w : Json := .obj [("USERNAME", .str "bj"), ("eMails",
      .arr [.obj [("TYPE", .str "work"), ("Value", .str "A")],
        .obj [("type", .str "home"), ("value", .str "b")]])]
    let q : Query := ⟨[.attribute "emails" (some (.compare ["type"] .eq (.text "work") false))]⟩
    (v.AllObjects Distinct ∧ w.AllObjects Distinct ∧ v.Recased w) ∧
      q.holds v = true ∧ q.holds w = true := by
  intro v w q
  have hv : v.AllObjects Distinct := by decide +kernel
  have hw : w.AllObjects Distinct := by decide +kernel
  have h : v.Recased w := (identical_iff _ _).mp (by decide +kernel)
  have hholds : q.holds v = true := by decide +kernel
  exact ⟨⟨hv, hw, h⟩, hholds, ((holds_recased v w hv hw h).1 q).symm.trans hholds⟩

end Roster
