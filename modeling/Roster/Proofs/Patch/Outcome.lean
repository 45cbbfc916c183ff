import Roster.Proofs.Members.Order
import Roster.Proofs.Members.Others
import Roster.Proofs.Patch.Names

/-! What one step of a modification leaves: where the edit at a target takes place, and what becomes
of the extensions of the resource and of its list of schemas. Every fact about the top of a resource
can be read off these cases. -/

namespace Roster

namespace Members

variable {ms : Members Json} {name other : String} {v : Json}

theorem besides_putHeld (ms : Members Json) (name : String) (v : Json) :
    besides (putHeld ms name v) name = besides ms name :=
  besides_insert v (heldKey_sameName ms name)

/-- A value that is put under the held spelling of a name is found for it. -/
theorem find?_putHeld_self (ms : Members Json) (name : String) (v : Json) :
    find? (putHeld ms name v) name = some v := by
  unfold putHeld
  cases hk : key? ms name with
  | none => exact find?_of_get? (get?_insert_self ms name v)
  | some held => simp [find?, key?_insert_held v hk, get?_insert_self]

theorem putHeld_of_find? (hs : Sorted ms) {v : Json} (h : find? ms name = some v) :
    putHeld ms name v = ms :=
  insert_of_get? hs ((get?_heldKey ms name).trans h)

theorem set_of_get? (hs : Sorted ms) {v : Json} (h : get? ms name = some v) :
    set ms name v = ms := by
  rw [set_of_key? (by simp [key?, h]), insert_of_get? hs h]

/-! ### Names in one spelling -/

theorem spelledOnce_congr (h : sameName name other = true) :
    SpelledOnce ms name ↔ SpelledOnce ms other := by
  have hiff (k : String) : sameName name k = sameName other k := by
    rw [Bool.eq_iff_iff, sameName_iff, sameName_iff, sameName_iff.mp h]
  simp only [SpelledOnce, hiff]

/-- A value that is put under the held spelling of a name brings no second spelling. -/
theorem SpelledOnce.putHeld (h : SpelledOnce ms name) (other : String) (v : Json) :
    SpelledOnce (putHeld ms other v) name := by
  intro k hk l hl hks hls
  cases hkey : Members.key? ms other with
  | some held =>
    have hmem := key?_mem hkey
    have before {k : String} (hk : k ∈ keys (Members.putHeld ms other v)) : k ∈ keys ms := by
      rw [Members.putHeld, hkey] at hk
      rcases (mem_keys_insert v).mp hk with rfl | hk
      · exact hmem
      · exact hk
    exact h k (before hk) l (before hl) hks hls
  | none =>
    -- a new name is no spelling of one that is held
    have hnew {l : String} (hl : l ∈ keys ms) (hs : sameName other l = true) : False := by
      have hsome := key?_isSome.mpr ⟨l, hl, hs⟩
      rw [hkey] at hsome
      cases hsome
    have hsame {k l : String} (hk : sameName name k = true) (hl : sameName name l = true) :
        sameName k l = true := by
      rw [sameName_comm] at hk
      exact sameName_trans hk hl
    rw [Members.putHeld, hkey, Option.getD_none] at hk hl
    rcases (mem_keys_insert v).mp hk with hk | hk <;> rcases (mem_keys_insert v).mp hl with hl | hl
    · exact hk.trans hl.symm
    · exact (hnew hl (hk ▸ hsame hks hls)).elim
    · exact (hnew hk (hl ▸ hsame hls hks)).elim
    · exact h k hk l hl hks hls

theorem SpelledOnce.set_any (h : ∀ name, SpelledOnce ms name) (other : String) (v : Json)
    (name : String) : SpelledOnce (Members.set ms other v) name := by
  cases hs : sameName name other with
  | true => exact (spelledOnce_congr hs).mpr ((h other).set fun _ => rfl)
  | false => exact (h name).set fun hsame => by simp [hs] at hsame

end Members

/-! ### The list of schemas -/

namespace Json

open Members

variable {root : Members Json} {items : List Json}

/-- The items of the list when a URN has been declared. -/
def withUrn (urn : String) (items : List Json) : List Json :=
  if items.any (isUrnOf urn) then items else items ++ [.str urn]

theorem any_withUrn_self (urn : String) (items : List Json) :
    (withUrn urn items).any (isUrnOf urn) = true := by
  unfold withUrn
  split_ifs with h
  · exact h
  · simp [isUrnOf, string?]

theorem declare_items (urn : String) (h : find? root "schemas" = some (.arr items)) :
    (Json.obj root).declare urn =
      .obj (putHeld root "schemas" (.arr (withUrn urn items))) := by
  simp [declare, editAt, Json.editObject, editWithin, Members.editList, edit, get?_heldKey, h,
    Json.editList, Except.map, putHeld, withUrn]

theorem undeclare_items (urn : String) (h : find? root "schemas" = some (.arr items)) :
    (Json.obj root).undeclare urn =
      .obj (putHeld root "schemas" (.arr (items.filter fun v => !v.isUrnOf urn))) := by
  simp [undeclare, editHeldList, Members.editList, edit, get?_heldKey, h, Json.editList,
    Except.map, putHeld]

/-- A declaration changes the list of schemas and nothing else. -/
theorem declare_besides (urn : String) (root : Members Json) :
    ∃ root', (Json.obj root).declare urn = .obj root' ∧
      besides root' "schemas" = besides root "schemas" := by
  unfold Json.declare
  split
  · rename_i v hv
    obtain ⟨root', hedit, rfl⟩ := Json.editObject_eq_ok hv
    obtain ⟨items, -, rfl⟩ := editList_eq_ok hedit
    exact ⟨_, rfl, besides_putHeld _ _ _⟩
  · exact ⟨root, rfl, rfl⟩

theorem undeclare_besides (urn : String) (root : Members Json) :
    ∃ root', (Json.obj root).undeclare urn = .obj root' ∧
      besides root' "schemas" = besides root "schemas" := by
  rw [Json.undeclare]
  split
  · rename_i root' hedit
    rcases editHeldList_eq_ok hedit with rfl | ⟨items, -, rfl⟩
    · exact ⟨root', rfl, rfl⟩
    · exact ⟨_, rfl, besides_putHeld _ _ _⟩
  · exact ⟨root, rfl, rfl⟩

end Json

open Members

variable {r : Registry} {kind : Kind}

/-! ### Edits at a target -/

/-- An edit of an attribute leaves the members of other names in the object that holds it. -/
theorem besides_rule (a : Attribute) (x : Members Json) :
    HolderRule [a] False (fun _ _ => True) fun ms => besides ms a.name = x where
  value _ := anyValue_rule _ False
  found _ _ _ := trivial
  set h hd _ := by
    obtain rfl := List.mem_singleton.mp (findAttribute?_mem hd.found)
    exact (besides_set _ _ _).trans h
  putHeld h hd _ := by
    obtain rfl := List.mem_singleton.mp (findAttribute?_mem hd.found)
    exact (besides_putHeld _ _ _).trans h
  remove h hd _ := by
    obtain rfl := List.mem_singleton.mp (findAttribute?_mem hd.found)
    exact (besides_remove _ _).trans h

/-- A target within an attribute lies in it whatever other attributes there are. -/
theorem Target.Within.alone {t : Target} {resource : Json} {definitions : List Attribute}
    {a : Attribute} (h : t.Within resource definitions a) : t.Within resource [a] a where
  definition := h.definition
  defined := ⟨by simp [findAttribute?], h.defined.writable⟩
  sub := h.sub
  listed := h.listed
  selected := h.selected

namespace Target.Within

variable {t : Target} {resource value : Json} {definitions : List Attribute} {a : Attribute}
  {holder holder' : Members Json}

theorem addIn_besides (ht : t.Within resource definitions a)
    (h : t.addIn a value holder = .ok holder') : besides holder' a.name = besides holder a.name :=
  (besides_rule a _).addIn ht.alone (fun hf => hf.elim) rfl h

theorem replaceIn_besides (ht : t.Within resource definitions a)
    (h : t.replaceIn a value holder = .ok holder') :
    besides holder' a.name = besides holder a.name :=
  (besides_rule a _).replaceIn ht.alone (fun hf => hf.elim) rfl h

end Target.Within

theorem Target.Within.removal_besides {t : Target} {resource : Json} {definitions : List Attribute}
    {a : Attribute} (ht : t.Within resource definitions a) {value : Option Json}
    {holder holder' : Members Json} (h : t.removal a value holder = .ok holder') :
    besides holder' a.name = besides holder a.name := by
  obtain ⟨edited, hr, h⟩ := bind_eq_ok.mp h
  cases h
  exact (besides_rule a _).removeIn ht.alone rfl hr

/-- Where the edit at a target takes place: at the top of the resource, in an object under an
attribute of the kind, or in the object of the target's extension. -/
inductive Target.Edits (r : Registry) (kind : Kind) (t : Target) (a : Attribute)
    (f : Edit (Members Json)) (root : Members Json) : Json → Prop where
  | top {root' : Members Json} (container : t.container = []) (unextended : t.extension = none)
      (within : t.Within (.obj root) kind.attributes a) (edited : f root = .ok root') :
      Edits r kind t a f root (.obj root')
  | nested {b : Attribute} {keys : List String} {held inner : Members Json}
      (defined : Defined kind.attributes b) (singular : b.multiValued = false)
      (container : t.container = b.name :: keys) (unextended : t.extension = none)
      (held_eq : find? root b.name = some (.obj held) ∨ held = [])
      (edited : editWithin keys f held = .ok inner) :
      Edits r kind t a f root (.obj (putHeld root b.name (.obj inner)))
  | extension {s : Schema} {keys : List String} {held inner : Members Json}
      (known : Registered r kind s) (container : t.container = s.id :: keys)
      (extended : t.extension = some s.id)
      (held_eq : find? root s.id = some (.obj held) ∨ held = [])
      (edited : editWithin keys f held = .ok inner) :
      Edits r kind t a f root (.obj (putHeld root s.id (.obj inner)))

theorem editAt_edits {root : Members Json} {v : Json} {t : Target} {a : Attribute}
    (ht : t.Resolved r kind (.obj root)) (ha : t.definition = some a) {f : Edit (Members Json)}
    (h : (Json.obj root).editAt t.container f = .ok v) : t.Edits r kind a f root v := by
  obtain ⟨root', hedit, rfl⟩ := Json.editObject_eq_ok h
  cases ht with
  | extension s urn _ _ hnone => simp [hnone] at ha
  | core inner b hext hl hw =>
    obtain rfl : b = a := Option.some.inj (hw.definition.symm.trans ha)
    generalize hc : t.container = keys at hl hedit
    cases hl with
    | here => exact .top hc hext hw hedit
    | into hd hs hcomplex hl =>
      obtain ⟨held, next, hheld, hnext, rfl⟩ := Members.editObject_eq_ok hedit
      exact .nested hd hs hc hext hheld hnext
  | extended s urn keys inner b hs hurn hext hk hl hw =>
    rw [hk] at hedit
    obtain ⟨held, next, hheld, hnext, rfl⟩ := Members.editObject_eq_ok hedit
    exact .extension ⟨urn, hs, hurn⟩ hk hext hheld hnext

/-! ### Steps -/

namespace PatchStep

/-- The path at which a step removes something, and the values that it names for it. Null is
assigned by removing. -/
def removal? : PatchStep → Option (String × Option Json)
  | .assign _ path .null => some (path, none)
  | .assign _ _ _ => none
  | .remove path value => some (path, value)

/-- The step removes the last member of an extension. -/
def Empties (r : Registry) (kind : Kind) (s : PatchStep) (urn : String) (resource : Json) : Prop :=
  ∃ path value t a v, s.removal? = some (path, value) ∧
    resolveText r kind path resource = .ok t ∧ t.definition = some a ∧ t.extension = some urn ∧
    (resource.objectAt? t.container).isSome = true ∧
    resource.editAt t.container (t.removal a value) = .ok v ∧ v.member? urn = some (.obj [])

end PatchStep

/-- What a step leaves of a resource: an attribute of the kind is edited, an extension is written
and declared, an extension loses some of its members, or it is dropped and no longer declared. -/
inductive Outcome (r : Registry) (kind : Kind) (s : PatchStep) (root : Members Json) :
    Json → Prop where
  | unchanged : Outcome r kind s root (.obj root)
  | edited {b : Attribute} {root' : Members Json} (defined : Defined kind.attributes b)
      (others : besides root' b.name = besides root b.name) : Outcome r kind s root (.obj root')
  | written {e : Schema} {root' : Members Json} (known : Registered r kind e)
      (others : besides root' e.id = besides root e.id) :
      Outcome r kind s root ((Json.obj root').declare e.id)
  | reduced {e : Schema} {inner : Members Json} (known : Registered r kind e)
      (held : (find? root e.id).isSome = true) :
      Outcome r kind s root (.obj (putHeld root e.id (.obj inner)))
  | emptied {e : Schema} (known : Registered r kind e) (last : s.Empties r kind e.id (.obj root)) :
      Outcome r kind s root
        (((Json.obj (putHeld root e.id (.obj []))).dropMember e.id).undeclare e.id)
  | dropped {e : Schema} (known : Registered r kind e)
      (optional : ∀ urn ∈ r.requiredExtensions kind, sameName urn e.id = false) :
      Outcome r kind s root (((Json.obj root).dropMember e.id).undeclare e.id)

section

variable {root : Members Json} {v value : Json} {t : Target} {a : Attribute} {s : PatchStep}

/-- An edit of an attribute changes no member of the resource but one, and an extension that is
written is declared. -/
theorem Target.Edits.outcome {f : Edit (Members Json)} (h : t.Edits r kind a f root v)
    (hf : ∀ {definitions : List Attribute}, t.Within (.obj root) definitions a → ∀ ms ms',
      f ms = .ok ms' → besides ms' a.name = besides ms a.name) :
    Outcome r kind s root (t.declareIn v) := by
  cases h with
  | top _ hnone hw hedit =>
    rw [Target.declareIn, hnone]
    exact .edited hw.defined (hf hw _ _ hedit)
  | nested hd _ _ hnone =>
    rw [Target.declareIn, hnone]
    exact .edited hd (besides_putHeld _ _ _)
  | extension hs _ hext =>
    rw [Target.declareIn, hext]
    exact .written hs (besides_putHeld _ _ _)

theorem Target.add_outcome (ht : t.Resolved r kind (.obj root))
    (h : t.add value (.obj root) = .ok v) : Outcome r kind s root v := by
  cases Target.add_eq_ok h with
  | whole hd _ _ =>
    obtain ⟨e, he, hn, -⟩ := PatchRule.target_extension ht hd
    rw [hn]
    exact .written he (besides_putHeld _ _ _)
  | part hd hw =>
    exact (editAt_edits ht hd hw).outcome fun hin _ _ hedit => hin.addIn_besides hedit

theorem Target.replace_outcome (ht : t.Resolved r kind (.obj root))
    (h : t.replace value (.obj root) = .ok v) : Outcome r kind s root v := by
  cases Target.replace_eq_ok h with
  | whole hd _ =>
    obtain ⟨e, he, hn, -⟩ := PatchRule.target_extension ht hd
    rw [hn]
    exact .written he (besides_set _ _ _)
  | part hd _ hw =>
    exact (editAt_edits ht hd hw).outcome fun hin _ _ hedit => hin.replaceIn_besides hedit

theorem Target.remove_outcome {path : String} {named : Option Json}
    (hs : s.removal? = some (path, named)) (hres : resolveText r kind path (.obj root) = .ok t)
    (h : t.remove r kind named (.obj root) = .ok v) : Outcome r kind s root v := by
  have ht := resolveText_resolved hres
  cases Target.remove_eq_ok h with
  | whole hd hoptional =>
    obtain ⟨e, he, hn, -⟩ := PatchRule.target_extension ht hd
    rw [hn] at hoptional ⊢
    exact .dropped he hoptional
  | absent => exact .unchanged
  | @part a w hd _ hsome hw =>
    cases editAt_edits ht hd hw with
    | top _ hnone hin hedit =>
      rw [Target.dropIn, hnone]
      exact .edited hin.defined (hin.removal_besides hedit)
    | nested hdb _ _ hnone =>
      rw [Target.dropIn, hnone]
      exact .edited hdb (besides_putHeld _ _ _)
    | @extension e keys held inner he hc hext _ _ =>
      simp only [Target.dropIn, hext]
      unfold Json.dropEmptyExtension
      split
      · -- the object that was put back is the one found to be empty
        rename_i hempty
        have hput : inner = [] := by
          simpa [Json.member?, Json.members?, find?_putHeld_self] using hempty
        subst hput
        exact .emptied he ⟨path, named, t, a, _, hs, hres, hd, hext, hsome, hw, hempty⟩
      · refine .reduced he ?_
        rw [hc] at hsome
        cases hf : find? root e.id with
        | some _ => rfl
        | none => simp [Json.objectAt?, Json.member?, Json.members?, hf] at hsome

theorem PatchStep.outcome (h : s.apply r kind (.obj root) = .ok v) : Outcome r kind s root v := by
  cases s with
  | remove path named =>
    obtain ⟨t, ht, h⟩ := bind_eq_ok.mp h
    exact Target.remove_outcome rfl ht h
  | assign how path value =>
    obtain ⟨t, ht, hstep⟩ := bind_eq_ok.mp h
    split at hstep
    · rename_i hnull
      obtain rfl := Json.eq_null hnull
      exact Target.remove_outcome rfl ht hstep
    · cases how with
      | add => exact Target.add_outcome (resolveText_resolved ht) hstep
      | replace => exact Target.replace_outcome (resolveText_resolved ht) hstep

end

end Roster
