import Roster.Proofs.Service.Action
import Roster.Proofs.Service.Build

/-! The form that changes give a resource: it is canonical, lists its schemas and has its required
attributes. Resolving the members of a group makes them complete, and leaves them checked. -/

namespace Roster

variable {r : Registry} {kind : Kind} {v : Json}

/-! ### Resources as modifications leave them -/

/-- A canonical resource that lists its schemas and has its required attributes. -/
structure Registry.Tidy (r : Registry) (kind : Kind) (v : Json) : Prop where
  isObject : v.isObject = true
  canonical : Canonical r kind v.root
  declares : Declares r kind v.root
  required : ∀ a ∈ kind.coreSchema.attributes, a.required = true →
    (Members.find? v.root a.name).isSome = true

namespace Registry

/-- The resource of a body is tidy. -/
theorem build_tidy (hw : r.WellNamed) (h1 : r.Single kind) {body : Json}
    (h : r.build kind body = .ok v) : r.Tidy kind v := by
  obtain ⟨attributes, schemas, w, hassign, rfl, hmissing⟩ := build_eq_ok h
  obtain ⟨hblank, hblankDeclares⟩ := blank_declares r kind
  obtain ⟨root, rfl, hc, hd⟩ := hblankDeclares.run hw h1 hblank (Operation.apply_run hassign)
  obtain ⟨items, hext, hdeclares, -⟩ := hd.declareExtensions hw h1 schemas
  rw [hext] at hmissing ⊢
  refine ⟨rfl, hc.insert (.schemas items), hdeclares, fun a ha hr => ?_⟩
  have hfound := List.find?_eq_none.mp hmissing a ha
  rw [hr, Bool.true_and] at hfound
  change (Members.find? (Members.insert root "schemas" (.arr items)) a.name).isSome = true
  cases hf : Members.find? (Members.insert root "schemas" (.arr items)) a.name with
  | some x => rfl
  | none => simp [Json.member?, Json.members?, hf] at hfound

namespace Tidy

/-- Operations leave a tidy resource. -/
theorem applyAll (hw : r.WellNamed) (h1 : r.Single kind) (h : r.Tidy kind v)
    {ops : List Operation} {w : Json} (ha : Operation.applyAll r kind ops v = .ok w) :
    r.Tidy kind w := by
  obtain ⟨root, rfl⟩ := Json.isObject_iff.mp h.isObject
  obtain ⟨root', rfl, hc, hd⟩ := h.declares.run hw h1 h.canonical (Operation.applyAll_run ha)
  refine ⟨rfl, hc, hd, fun a hmem hr => ?_⟩
  obtain ⟨_, heq, hkept⟩ := (required_rule r hmem hr).applyAll (h.required a hmem hr) ha
  cases heq
  exact hkept

/-- A member that fits may be put, if it is neither the list of schemas nor an extension. -/
theorem put (h : r.Tidy kind v) {key : String} {x : Json} (hf : Fits r kind (key, x))
    (hkey : key ≠ "schemas") (hurn : isUrn key = false) : r.Tidy kind (v.put key x) := by
  obtain ⟨root, rfl⟩ := Json.isObject_iff.mp h.isObject
  refine ⟨rfl, h.canonical.insert hf, h.declares.congr ?_ fun s hs => ?_, fun a ha hr => ?_⟩
  · exact Members.get?_insert_of_ne _ _ hkey.symm
  · refine Members.get?_insert_of_ne _ _ ?_
    rintro rfl
    rw [registered_isUrn hs] at hurn
    cases hurn
  · obtain ⟨held, hheld, hs⟩ := Members.find?_isSome.mp (h.required a ha hr)
    exact Members.find?_isSome.mpr ⟨held, (Members.mem_keys_insert x).mpr (.inr hheld), hs⟩

/-- The server may put what it assigns. -/
theorem assign (h : r.Tidy kind v) {key : String} (hk : key ∈ ["id", "meta"]) (x : Json) :
    r.Tidy kind (v.put key x) := by
  refine h.put (.assigned x hk) ?_ ?_
  · rcases List.mem_pair.mp hk with rfl | rfl <;> decide
  · rcases List.mem_pair.mp hk with rfl | rfl <;> decide

/-- The value of a singular text attribute is a text. -/
theorem text (h : r.Tidy kind v) {a : Attribute} (hd : Defined kind.attributes a)
    (hm : a.multiValued = false) (ht : a.type = .string) {x : Json}
    (hx : v.member? a.name = some x) : ∃ text, x = .str text := by
  obtain ⟨root, rfl⟩ := Json.isObject_iff.mp h.isObject
  have hget : Members.get? root a.name = some x :=
    (h.canonical.find? hd.named).symm.trans hx
  have hv : checkValue a x = .ok x := h.canonical.value hd hget
  rw [checkValue_singular hm, checkSingle_of_ne_complex (by simp [ht]), checkScalar_eq_ok, ht] at hv
  obtain ⟨text, -, rfl⟩ := Option.map_eq_some_iff.mp hv
  exact ⟨text, rfl⟩

end Tidy

end Registry

/-! ### Complete members -/

/-- The names of what a member of a group holds when it is resolved. -/
def memberNames : List String := ["value", "type", "$ref", "display"]

/-- A member of a group holds all that resolving fills in. -/
def CompleteMember (e : Json) : Prop :=
  ∀ name ∈ memberNames, (e.get? name).isSome = true

/-- The definition of the members of a group. -/
structure IsMembers (a : Attribute) : Prop where
  defined : Defined Kind.group.attributes a
  name : a.name = "members"
  listed : a.multiValued = true
  complex : a.type = .complex
  texts : ∀ name ∈ memberNames, ∃ sub, Defined a.subAttributes sub ∧ sub.name = name ∧
    sub.multiValued = false ∧ (sub.type = .string ∨ sub.type = .reference)

theorem exists_isMembers : ∃ a, IsMembers a := by
  obtain ⟨a, ha⟩ := Option.isSome_iff_exists.mp
    (show (findAttribute? Kind.group.attributes "members").isSome = true by decide)
  have hform : (findAttribute? Kind.group.attributes "members").all (fun a =>
      a.name == "members" && !a.isReadOnly && a.multiValued && a.type == .complex &&
        memberNames.all fun name => (findAttribute? a.subAttributes name).any fun sub =>
          sub.name == name && !sub.isReadOnly && !sub.multiValued &&
            (sub.type == .string || sub.type == .reference)) = true := by decide
  simp only [ha, Option.all_some, Bool.and_eq_true, beq_iff_eq, Bool.not_eq_true',
    List.all_eq_true, Option.any_eq_true, Bool.or_eq_true] at hform
  obtain ⟨⟨⟨⟨hname, hro⟩, hlisted⟩, hcomplex⟩, htexts⟩ := hform
  refine ⟨a, ⟨hname.symm ▸ ha, hro⟩, hname, hlisted, hcomplex, fun name hn => ?_⟩
  obtain ⟨sub, hsub, ⟨⟨hsubName, hsubRo⟩, hsingular⟩, htype⟩ := htexts name hn
  exact ⟨sub, ⟨hsubName.symm ▸ hsub, hsubRo⟩, hsubName, hsingular, htype⟩

variable {a : Attribute} {e : Json}

/-- What resolving fills in are texts, which pass the check. -/
theorem IsMembers.text (ha : IsMembers a) {name : String} (hn : name ∈ memberNames)
    (text : String) : CheckedMember a.subAttributes (name, .str text) := by
  obtain ⟨sub, hd, rfl, hm, ht⟩ := ha.texts name hn
  refine CheckedObject.member hd ?_
  rw [checkValue_singular hm]
  rcases ht with ht | ht
  · rw [checkSingle_of_ne_complex (by simp [ht]), checkScalar_eq_ok, ht]
    rfl
  · rw [checkSingle_of_ne_complex (by simp [ht]), checkScalar_eq_ok, ht]
    rfl

theorem IsMembers.object (ha : IsMembers a) (he : checkSingle a e = .ok e) :
    ∃ ms, e = .obj ms ∧ CheckedObject a.subAttributes ms := by
  have hobj := he
  rw [checkSingle_complex ha.complex, map_eq_ok] at hobj
  obtain ⟨ms, -, rfl⟩ := hobj
  exact ⟨ms, rfl, (checkSingle_obj_self_iff.mp he).2⟩

/-! ### The name that a resource is shown by -/

/-- The attributes that a member may be shown by are singular texts. -/
theorem display_text (kind : Kind) {name : String} (hname : name ∈ ["displayName", "userName"])
    (ha : kind.attribute? name = some a) :
    Defined kind.attributes a ∧ a.name = name ∧ a.multiValued = false ∧ a.type = .string := by
  have hform : ∀ name ∈ ["displayName", "userName"], (kind.attribute? name).all (fun a =>
      a.name == name && !a.isReadOnly && !a.multiValued && a.type == .string) = true := by
    cases kind <;> decide
  have h := hform name hname
  simp only [ha, Option.all_some, Bool.and_eq_true, beq_iff_eq, Bool.not_eq_true'] at h
  obtain ⟨⟨⟨hsame, hro⟩, hm⟩, ht⟩ := h
  exact ⟨⟨findAttribute?_name ha, hro⟩, hsame, hm, ht⟩

/-- A user has a user name, and a group a display name. -/
theorem display_required (kind : Kind) : ∃ a ∈ kind.coreSchema.attributes, a.required = true ∧
    a.name = match kind with
      | .user => "userName"
      | .group => "displayName" := by
  cases kind <;> exact ⟨_, List.mem_cons_self, rfl, rfl⟩

theorem display_known (kind : Kind) : (kind.attribute? "displayName").isSome = true ∧
    (Kind.user.attribute? "userName").isSome = true := by
  cases kind <;> decide

/-- A tidy resource has a text to be shown by. -/
theorem Registry.Tidy.display (h : r.Tidy kind v) : ∃ text,
    ((v.member? "displayName").orElse fun _ => v.member? "userName") = some (.str text) := by
  obtain ⟨root, rfl⟩ := Json.isObject_iff.mp h.isObject
  have shown {name : String} {x : Json} (hname : name ∈ ["displayName", "userName"])
      (hknown : (kind.attribute? name).isSome = true)
      (hx : (Json.obj root).member? name = some x) : ∃ text, x = .str text := by
    obtain ⟨a, ha⟩ := Option.isSome_iff_exists.mp hknown
    obtain ⟨hd, rfl, hm, ht⟩ := display_text kind hname ha
    exact h.text hd hm ht hx
  cases hdisplay : (Json.obj root).member? "displayName" with
  | some x =>
    obtain ⟨text, rfl⟩ := shown (by simp) (display_known kind).1 hdisplay
    exact ⟨text, rfl⟩
  | none =>
    obtain ⟨a, ha, hreq, hname⟩ := display_required kind
    have hfound := h.required a ha hreq
    rw [hname] at hfound
    cases kind with
    | user =>
      obtain ⟨x, hx⟩ := Option.isSome_iff_exists.mp hfound
      have hmember : (Json.obj root).member? "userName" = some x := hx
      obtain ⟨text, rfl⟩ := shown (by simp) (display_known .user).2 hmember
      exact ⟨text, hmember⟩
    | group =>
      have hnone : Members.find? root "displayName" = none := hdisplay
      simp [Json.root, Json.members?, hnone] at hfound

namespace Service

variable {s : Service} {st st' : Store} {id baseUrl : String}

/-! ### Resolved members -/

theorem checked_putNew {definitions : List Attribute} {ms : Members Json}
    (h : CheckedObject definitions ms) {key : String} {x : Json}
    (hm : CheckedMember definitions (key, x)) : CheckedObject definitions (putNew ms key x) := by
  unfold putNew
  split_ifs
  · exact h
  · exact h.insert hm

theorem isSome_putNew {ms : Members Json} {key other : String} {x : Json}
    (h : other = key ∨ (ms.get? other).isSome = true) :
    ((putNew ms key x).get? other).isSome = true := by
  unfold putNew
  split_ifs with hs
  · rcases h with rfl | h
    · exact hs
    · exact h
  · rw [Members.isSome_get?, Members.mem_keys_insert, ← Members.isSome_get?]
    exact h

/-- A resolved member is checked and complete. -/
theorem completeMember_complete (ha : IsMembers a) (he : checkSingle a e = .ok e) (id : String)
    {resource : Json} (hr : r.Tidy kind resource) :
    checkSingle a (completeMember baseUrl e id kind resource) =
        .ok (completeMember baseUrl e id kind resource) ∧
      CompleteMember (completeMember baseUrl e id kind resource) := by
  obtain ⟨given, rfl, hgiven⟩ := ha.object he
  obtain ⟨display, hdisplay⟩ := hr.display
  have hmembers : completeMember baseUrl (.obj given) id kind resource =
      .obj (putNew (putNew (putNew (Members.insert given "value" (.str id)) "type"
        (.str kind.name)) "$ref" (.str (location baseUrl kind id))) "display"
        (.str display)) := by
    unfold completeMember
    rw [hdisplay]
    rfl
  rw [hmembers]
  have text {name : String} (hn : name ∈ memberNames) (text : String) := ha.text hn text
  refine ⟨checkSingle_obj_self_iff.mpr ⟨ha.complex, ?_⟩, fun name hn => ?_⟩
  · refine checked_putNew (checked_putNew (checked_putNew (hgiven.insert ?_) ?_) ?_) ?_
    · exact text (by decide) id
    · exact text (by decide) kind.name
    · exact text (by decide) (location baseUrl kind id)
    · exact text (by decide) display
  · have hvalue :
        (Members.get? (Members.insert given "value" (.str id)) "value").isSome = true := by
      rw [Members.get?_insert_self]
      rfl
    simp only [memberNames, List.mem_cons, List.not_mem_nil, or_false] at hn
    rcases hn with rfl | rfl | rfl | rfl
    · exact isSome_putNew (.inr (isSome_putNew (.inr (isSome_putNew (.inr hvalue)))))
    · exact isSome_putNew (.inr (isSome_putNew (.inr (isSome_putNew (.inl rfl)))))
    · exact isSome_putNew (.inr (isSome_putNew (.inl rfl)))
    · exact isSome_putNew (.inl rfl)

/-- Checked entries are resolved to checked and complete ones. -/
theorem resolveEntries_complete (ha : IsMembers a)
    (hst : ∀ kind id v, st.get? kind id = some v → r.Tidy kind v) {done entries items : List Json}
    (hd : ∀ e ∈ done, checkSingle a e = .ok e ∧ CompleteMember e)
    (he : ∀ e ∈ entries, checkSingle a e = .ok e)
    (h : (resolveEntries baseUrl done entries).run st = (.ok items, st')) :
    ∀ e ∈ items, checkSingle a e = .ok e ∧ CompleteMember e := by
  induction entries generalizing done with
  | nil =>
    obtain ⟨rfl, -⟩ : done = items ∧ st = st' := by simpa [resolveEntries] using h
    exact hd
  | cons entry rest ih =>
    obtain ⟨hentry, hrest⟩ := List.forall_mem_cons.mp he
    unfold resolveEntries at h
    split at h
    · simp at h
    · rename_i id _
      split_ifs at h
      · exact ih hd hrest h
      · obtain ⟨⟨kind, resource⟩, s₁, hfound, hbehind⟩ := Task.bind_run_ok.mp h
        obtain rfl := (findMember_reads id).run_ok hfound
        have htidy := hst _ _ _ (findMember_stored hfound)
        refine ih (fun e hmem => ?_) hrest hbehind
        rcases List.mem_append.mp hmem with hmem | hmem
        · exact hd e hmem
        · obtain rfl := List.mem_singleton.mp hmem
          exact completeMember_complete ha hentry id htidy

end Service

end Roster
