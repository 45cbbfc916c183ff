import Roster.Proofs.Json
import Roster.Proofs.Patch.Outcome

/-! The list of schemas of a resource under modifications, for any number of extensions: what an
extension holds stays declared, and a required extension stays declared as long as no step takes its
last member. -/

namespace Roster

open Members

/-! ### The list of schemas -/

namespace Json

variable {root : Members Json} {items : List Json} {urn other : String} {v : Json}

theorem isUrnOf_congr (h : sameName urn other = true) (v : Json) :
    isUrnOf urn v = isUrnOf other v := by
  have hiff (s : String) : sameName urn s = sameName other s := by
    rw [Bool.eq_iff_iff, sameName_iff, sameName_iff, sameName_iff.mp h]
  cases v with
  | str s => exact hiff s
  | _ => rfl

/-- A value names one URN only, letter case aside. -/
theorem sameName_of_isUrnOf (h : isUrnOf urn v = true) (ho : isUrnOf other v = true) :
    sameName urn other = true := by
  cases v with
  | str s =>
    have hurn : sameName urn s = true := h
    have hother : sameName other s = true := ho
    rw [sameName_comm] at hother
    exact sameName_trans hurn hother
  | _ => simp [isUrnOf, string?] at h

/-- The list of schemas of a resource names a URN, in whatever case. -/
def declaresUrn (urn : String) (resource : Json) : Bool :=
  ((resource.member? "schemas").bind items?).any fun items => items.any (isUrnOf urn)

theorem declaresUrn_congr (h : sameName urn other = true) (resource : Json) :
    resource.declaresUrn urn = resource.declaresUrn other := by
  rw [declaresUrn, declaresUrn, funext (isUrnOf_congr h)]

theorem declaresUrn_of_items (h : find? root "schemas" = some (.arr items)) :
    (Json.obj root).declaresUrn urn = items.any (isUrnOf urn) := by
  simp [declaresUrn, member?, members?, h, items?]

theorem exists_items (h : (Json.obj root).declaresUrn urn = true) :
    ∃ items, find? root "schemas" = some (.arr items) ∧ items.any (isUrnOf urn) = true := by
  obtain ⟨items, hi, hany⟩ := (Option.any_eq_true _ _).mp h
  obtain ⟨v, hv, hitems⟩ := Option.bind_eq_some_iff.mp hi
  cases v with
  | arr held =>
    obtain rfl := Option.some.inj hitems
    exact ⟨held, hv, hany⟩
  | _ => simp [items?] at hitems

theorem any_withUrn (h : items.any (isUrnOf other) = true) :
    (withUrn urn items).any (isUrnOf other) = true := by
  unfold withUrn
  split_ifs
  · exact h
  · rw [List.any_append, h, Bool.true_or]

/-- A URN that is taken off the list takes no other one with it. -/
theorem any_withoutUrn (hne : sameName urn other = false) (h : items.any (isUrnOf other) = true) :
    (items.filter fun v => !v.isUrnOf urn).any (isUrnOf other) = true := by
  obtain ⟨v, hv, hother⟩ := List.any_eq_true.mp h
  refine List.any_eq_true.mpr ⟨v, List.mem_filter.mpr ⟨hv, ?_⟩, hother⟩
  rw [Bool.not_eq_true', Bool.eq_false_iff]
  intro hurn
  rw [sameName_of_isUrnOf hurn hother] at hne
  cases hne

theorem declaresUrn_undeclare (urn : String) (resource : Json) :
    (resource.undeclare urn).declaresUrn urn = false := by
  cases resource with
  | obj root =>
    cases hf : find? root "schemas" with
    | none => simp [undeclare, editHeldList, hf, declaresUrn, member?, members?]
    | some held =>
      cases held with
      | arr items =>
        rw [undeclare_items urn hf, declaresUrn_of_items (find?_putHeld_self _ _ _)]
        simp
      | _ => simp [undeclare, editHeldList, hf, declaresUrn, member?, members?, items?]
  | _ => simp [undeclare, declaresUrn, member?, members?]

end Json

open Json

/-! ### One step -/

variable {r : Registry} {kind : Kind} {s : PatchStep} {root root' : Members Json}
  {items items' : List Json} {v : Json} {urn : String}

/-- What a step leaves of the list of schemas, and of the members held for extensions. -/
inductive Listing (r : Registry) (kind : Kind) (s : PatchStep) (root : Members Json)
    (items : List Json) (root' : Members Json) : List Json → Prop where
  | kept (held : ∀ e, Registered r kind e → (find? root' e.id).isSome = true →
      (find? root e.id).isSome = true) : Listing r kind s root items root' items
  | declared {e : Schema} (known : Registered r kind e)
      (others : ∀ name, sameName e.id name = false → sameName "schemas" name = false →
        find? root' name = find? root name) :
      Listing r kind s root items root' (withUrn e.id items)
  | withdrawn {e : Schema} (known : Registered r kind e)
      (cause : s.Empties r kind e.id (.obj root) ∨
        ∀ urn ∈ r.requiredExtensions kind, sameName urn e.id = false)
      (others : ∀ name, sameName e.id name = false → sameName "schemas" name = false →
        find? root' name = find? root name)
      (gone : SpelledOnce root e.id → find? root' e.id = none) :
      Listing r kind s root items root' (items.filter fun v => !v.isUrnOf e.id)

/-- An extension that is dropped is withdrawn from the list, and nothing else changes. -/
theorem withdraw {start : Members Json} {e : Schema} (he : Registered r kind e)
    (hstart : besides start e.id = besides root e.id)
    (hone : SpelledOnce root e.id → SpelledOnce start e.id)
    (hi : find? root "schemas" = some (.arr items))
    (cause : s.Empties r kind e.id (.obj root) ∨
      ∀ urn ∈ r.requiredExtensions kind, sameName urn e.id = false) :
    ∃ root' items', ((Json.obj start).dropMember e.id).undeclare e.id = .obj root' ∧
      find? root' "schemas" = some (.arr items') ∧ Listing r kind s root items root' items' := by
  obtain ⟨hes, hse⟩ := registered_not_schemas he
  have hbesides : besides (remove start e.id) e.id = besides root e.id :=
    (besides_remove start e.id).trans hstart
  have hlist : find? (remove start e.id) "schemas" = some (.arr items) :=
    (find?_of_besides hbesides hes).trans hi
  refine ⟨_, _, undeclare_items e.id hlist, find?_putHeld_self _ _ _,
    .withdrawn he cause (fun name hname hschemas => ?_) fun hspelled => ?_⟩
  · calc find? (putHeld (remove start e.id) "schemas" _) name
      _ = find? (remove start e.id) name := find?_of_besides (besides_putHeld _ _ _) hschemas
      _ = find? root name := find?_of_besides hbesides hname
  · calc find? (putHeld (remove start e.id) "schemas" _) e.id
      _ = find? (remove start e.id) e.id := find?_of_besides (besides_putHeld _ _ _) hse
      _ = none := (hone hspelled).find?_remove

theorem Outcome.listing (h : Outcome r kind s root v)
    (hi : find? root "schemas" = some (.arr items)) :
    ∃ root' items', v = .obj root' ∧ find? root' "schemas" = some (.arr items') ∧
      Listing r kind s root items root' items' := by
  cases h with
  | unchanged => exact ⟨root, items, rfl, hi, .kept fun e _ hf => hf⟩
  | @edited b root' hd hothers =>
    -- neither the list of schemas nor an extension has the name of an attribute
    have hb := findAttribute?_mem hd.found
    refine ⟨root', items, rfl, ?_, .kept fun e he hf => ?_⟩
    · exact (find?_of_besides hothers (schemas_not_attribute kind b hb)).trans hi
    · rwa [find?_of_besides hothers (extension_not_same he (attributes_not_urn kind b hb))] at hf
  | @written e root' he hothers =>
    obtain ⟨hes, hse⟩ := registered_not_schemas he
    have hlist : find? root' "schemas" = some (.arr items) :=
      (find?_of_besides hothers hes).trans hi
    refine ⟨_, _, declare_items e.id hlist, find?_putHeld_self _ _ _,
      .declared he fun name hname hschemas => ?_⟩
    exact (find?_of_besides (besides_putHeld _ _ _) hschemas).trans
      (find?_of_besides hothers hname)
  | @reduced e inner he hheld =>
    refine ⟨_, items, rfl, ?_, .kept fun other _ hf => ?_⟩
    · exact (find?_of_besides (besides_putHeld _ _ _) (registered_not_schemas he).1).trans hi
    · cases hs : sameName e.id other.id with
      | false => rwa [find?_of_besides (besides_putHeld _ _ _) hs] at hf
      | true =>
        obtain ⟨k, hk, hks⟩ := find?_isSome.mp hheld
        rw [sameName_comm] at hs
        exact find?_isSome.mpr ⟨k, hk, sameName_trans hs hks⟩
  | emptied he hlast =>
    exact withdraw he (besides_putHeld _ _ _) (fun h => h.putHeld _ _) hi (.inl hlast)
  | dropped he hoptional => exact withdraw he rfl id hi (.inr hoptional)

/-! ### Extensions that hold something -/

/-- No two members have the same name but for letter case, and the list of schemas names the core
schema of the kind and every extension of the kind that the resource has a member for. -/
structure DeclaresHeld (r : Registry) (kind : Kind) (root : Members Json) : Prop where
  spelled : ∀ k ∈ keys root, ∀ l ∈ keys root, sameName k l = true → k = l
  core : (Json.obj root).declaresUrn kind.coreSchema.id = true
  held : ∀ e ∈ r.extensionsFor kind, (find? root e.schema.id).isSome = true →
    (Json.obj root).declaresUrn e.schema.id = true

/-- The extensions of a kind are named by URNs, and not by that of a core schema. -/
def Registry.NamesExtensions (r : Registry) (kind : Kind) : Prop :=
  ∀ e ∈ r.extensionsFor kind, isUrn e.schema.id = true ∧ isCoreSchema e.schema.id = false

theorem spelledOnce_iff : (∀ k ∈ keys root, ∀ l ∈ keys root, sameName k l = true → k = l) ↔
    ∀ name, SpelledOnce root name := by
  constructor
  · intro h name k hk l hl hks hls
    rw [sameName_comm] at hks
    exact h k hk l hl (sameName_trans hks hls)
  · intro h k hk l hl hs
    exact h k k hk l hl (sameName_refl k) hs

/-- Members of a resource that are spelled once are spelled once after every step. -/
theorem spelledOnce_rule (r : Registry) (kind : Kind) :
    PatchRule r kind False (fun _ _ => True) (fun _ _ => True) (fun _ _ => True)
      fun root => ∀ name, SpelledOnce root name where
  root := {
    value := fun _ => anyValue_rule _ False
    found := fun _ _ _ => trivial
    set := fun h _ _ name => SpelledOnce.set_any h _ _ name
    putHeld := fun h _ _ name => (h name).putHeld _ _
    remove := fun h _ _ name => (h name).remove _ }
  inner _ := anyHolder_rule _ False
  empty _ := trivial
  object _ _ _ _ := Iff.rfl
  innerObject _ _ _ := Iff.rfl
  checked _ _ := trivial
  merged _ _ _ := trivial
  extension _ _ _ := trivial
  setExtension h _ _ name := SpelledOnce.set_any h _ _ name
  putExtension h _ _ name := (h name).putHeld _ _
  removeExtension h _ name := (h name).remove _
  schemas h name := (h name).putHeld _ _

/-- An extension of the kind that is named by a URN can be addressed under that URN. -/
theorem registered_of_mem {e : Extension} (he : e ∈ r.extensionsFor kind)
    (hurn : isUrn e.schema.id = true) :
    ∃ x, Registered r kind x ∧ sameName x.id e.schema.id = true := by
  obtain ⟨hmem, hkind⟩ := List.mem_filter.mp he
  have hsome : (r.extension? kind e.schema.id).isSome = true := by
    rw [Registry.extension?, Option.isSome_map, List.find?_isSome]
    exact ⟨e, hmem, by simpa using hkind⟩
  obtain ⟨x, hx⟩ := Option.isSome_iff_exists.mp hsome
  obtain ⟨-, -, -, hsame⟩ := Registry.extension?_some hx
  exact ⟨x, ⟨e.schema.id, hx, hurn⟩, hsame⟩

theorem find?_isSome_congr {a b : String} (h : sameName a b = true) :
    (find? root a).isSome = true ↔ (find? root b).isSome = true := by
  have hiff (k : String) : sameName a k = sameName b k := by
    rw [Bool.eq_iff_iff, sameName_iff, sameName_iff, sameName_iff.mp h]
  simp only [find?_isSome, hiff]

/-- A step leaves the core schema on the list, which is the schema of no extension. -/
theorem Listing.any_core (hr : r.NamesExtensions kind)
    (h : Listing r kind s root items root' items')
    (hcore : items.any (isUrnOf kind.coreSchema.id) = true) :
    items'.any (isUrnOf kind.coreSchema.id) = true := by
  cases h with
  | kept => exact hcore
  | declared => exact any_withUrn hcore
  | @withdrawn x hx =>
    refine any_withoutUrn ?_ hcore
    obtain ⟨urn, hurn, -⟩ := hx
    obtain ⟨e, he, rfl, -⟩ := Registry.extension?_some hurn
    have hother := (hr e he).2
    unfold isCoreSchema at hother
    rw [Bool.or_eq_false_iff, sameName_comm, sameName_comm Urn.group] at hother
    cases kind with
    | user => exact hother.1
    | group => exact hother.2

theorem schemas_not_extension {e : Extension} (he : e ∈ r.extensionsFor kind)
    (hurn : isUrn e.schema.id = true) : sameName "schemas" e.schema.id = false := by
  obtain ⟨own, hown, hsame⟩ := registered_of_mem he hurn
  rw [Bool.eq_false_iff]
  intro hschemas
  rw [sameName_comm] at hsame
  have hboth := sameName_trans hschemas hsame
  rw [(registered_not_schemas hown).2] at hboth
  cases hboth

/-- An extension that is held behind a step is on the list there, if it was on the list in front of
the step in case it was held. -/
theorem Listing.any_held (h : Listing r kind s root items root' items')
    (hspelled : ∀ name, SpelledOnce root name) {e : Extension} (he : e ∈ r.extensionsFor kind)
    (hurn : isUrn e.schema.id = true)
    (hbefore : (find? root e.schema.id).isSome = true → items.any (isUrnOf e.schema.id) = true)
    (hf : (find? root' e.schema.id).isSome = true) :
    items'.any (isUrnOf e.schema.id) = true := by
  have hschemas := schemas_not_extension he hurn
  cases h with
  | kept hkept =>
    obtain ⟨own, hown, hsame⟩ := registered_of_mem he hurn
    apply hbefore
    rw [← find?_isSome_congr hsame] at hf ⊢
    exact hkept own hown hf
  | @declared x hx hothers =>
    cases hxe : sameName x.id e.schema.id with
    | true =>
      have hfun : isUrnOf e.schema.id = isUrnOf x.id := funext fun v => (isUrnOf_congr hxe v).symm
      rw [hfun]
      exact any_withUrn_self x.id items
    | false =>
      rw [hothers _ hxe hschemas] at hf
      exact any_withUrn (hbefore hf)
  | @withdrawn x hx _ hothers hgone =>
    cases hxe : sameName x.id e.schema.id with
    | true =>
      -- the extension has no member left
      rw [← find?_isSome_congr hxe, hgone (hspelled x.id)] at hf
      cases hf
    | false =>
      rw [hothers _ hxe hschemas] at hf
      exact any_withoutUrn hxe (hbefore hf)

/-- A step keeps the list of schemas complete. -/
theorem DeclaresHeld.step (hr : r.NamesExtensions kind) (h : DeclaresHeld r kind root)
    (hs : s.apply r kind (.obj root) = .ok v) :
    ∃ root', v = .obj root' ∧ DeclaresHeld r kind root' := by
  have hspelled := spelledOnce_iff.mp h.spelled
  obtain ⟨items, hi, hcore⟩ := exists_items h.core
  obtain ⟨root', items', rfl, hi', hlisting⟩ := (PatchStep.outcome hs).listing hi
  have hbefore : ∀ name, SpelledOnce (Json.obj root).root name := hspelled
  have hafter : ∀ name, SpelledOnce root' name :=
    (spelledOnce_rule r kind).step (fun hf => hf.elim) hbefore hs
  refine ⟨root', rfl, spelledOnce_iff.mpr hafter, ?_, fun e he hf => ?_⟩
  · rw [declaresUrn_of_items hi']
    exact hlisting.any_core hr hcore
  · rw [declaresUrn_of_items hi']
    refine hlisting.any_held hspelled he (hr e he).1 (fun hf => ?_) hf
    rw [← declaresUrn_of_items hi]
    exact h.held e he hf

/-- Operations leave no extension undeclared that the resource holds something of, and they keep the
core schema declared: what names its members but once and declares the extensions that it holds does
so after them. -/
theorem Operation.applyAll_declaresHeld (hr : r.NamesExtensions kind)
    (h : DeclaresHeld r kind root) {ops : List Operation}
    (happly : Operation.applyAll r kind ops (.obj root) = .ok v) :
    ∃ root', v = .obj root' ∧ DeclaresHeld r kind root' := by
  apply PatchStep.run_keeps (P := fun v => ∃ root', v = .obj root' ∧ DeclaresHeld r kind root')
    ?_ ⟨root, rfl, h⟩ (Operation.applyAll_run happly)
  rintro s resource resource' ⟨start, rfl, hstart⟩ hs
  exact hstart.step hr hs

/-- An extension that says where a user sits. -/
def seat : Schema := Schema.make "urn:seat" "Seat" "Where a user sits"
  [Attribute.text "desk" "Name of a desk", Attribute.text "floor" "Name of a floor"]

/-- The extension of users alone, which they need not declare unless it is required. -/
def seatRegistry (required : Bool) : Registry := Registry.core.extend ⟨.user, seat, required⟩

/-- A user on a floor. -/
def seatedUser : Members Json :=
  [("schemas", .arr [.str Urn.user, .str "urn:seat"]), ("urn:seat", .obj [("floor", .str "3")]),
    ("userName", .str "bj")]

/-- The floor is taken away, with what declares it, and a desk comes under a URN of another case. -/
def leaveAndReturn : List Operation :=
  [.remove (some "urn:seat:floor") none,
    .add none (.obj [("URN:Seat", .obj [("desk", .str "B")])])]

theorem applyAll_declaresHeld_return : (seatRegistry false).NamesExtensions .user ∧
    DeclaresHeld (seatRegistry false) .user seatedUser ∧
    ∃ root', Operation.applyAll (seatRegistry false) .user leaveAndReturn (.obj seatedUser) =
      .ok (.obj root') ∧ DeclaresHeld (seatRegistry false) .user root' := by
  have hr : (seatRegistry false).NamesExtensions .user := by
    unfold Registry.NamesExtensions
    decide
  have h : DeclaresHeld (seatRegistry false) .user seatedUser :=
    ⟨by decide, by decide, by decide⟩
  obtain ⟨v, hv⟩ := exists_ok (show (Operation.applyAll (seatRegistry false) .user leaveAndReturn
    (.obj seatedUser)).toBool = true by decide)
  obtain ⟨root', rfl, hroot⟩ := Operation.applyAll_declaresHeld hr h hv
  exact ⟨hr, h, root', hv, hroot⟩

/-! ### Required extensions -/

/-- The list of schemas names every extension that the kind requires. -/
def DeclaresRequired (r : Registry) (kind : Kind) (resource : Json) : Prop :=
  ∀ urn ∈ r.requiredExtensions kind, resource.declaresUrn urn = true

instance (r : Registry) (kind : Kind) : DecidablePred (DeclaresRequired r kind) := fun resource =>
  inferInstanceAs
    (Decidable (∀ urn ∈ r.requiredExtensions kind, resource.declaresUrn urn = true))

/-- The step leaves an extension without members that the kind requires. -/
def PatchStep.EmptiesRequired (r : Registry) (kind : Kind) (s : PatchStep) (resource : Json) :
    Prop :=
  ∃ urn ∈ r.requiredExtensions kind, ∃ id, sameName urn id = true ∧ s.Empties r kind id resource

/-- A step that leaves an extension without members takes it off the list of schemas. -/
theorem PatchStep.Empties.undeclared {resource : Json} (hs : s.Empties r kind urn resource)
    (h : s.apply r kind resource = .ok v) : v.declaresUrn urn = false := by
  obtain ⟨path, value, t, a, edited, hremoval, ht, hd, hext, hheld, hedit, hempty⟩ := hs
  have hremove : t.remove r kind value resource = .ok v := by
    cases s with
    | remove p w =>
      cases hremoval
      obtain ⟨t', ht', h⟩ := bind_eq_ok.mp h
      rwa [← Except.ok.inj (ht.symm.trans ht')] at h
    | assign how p w =>
      cases w with
      | null =>
        cases hremoval
        obtain ⟨t', ht', h⟩ := bind_eq_ok.mp h
        rwa [← Except.ok.inj (ht.symm.trans ht')] at h
      | _ => cases hremoval
  cases Target.remove_eq_ok hremove with
  | whole hwhole => cases hd.symm.trans hwhole
  | absent _ _ hnone =>
    rw [hnone] at hheld
    cases hheld
  | part hpart _ _ hw =>
    cases hd.symm.trans hpart
    cases hedit.symm.trans hw
    simp only [Target.dropIn, hext]
    rw [Json.dropEmptyExtension, hempty]
    exact declaresUrn_undeclare _ _

theorem PatchStep.EmptiesRequired.not_declaresRequired {resource : Json}
    (hs : s.EmptiesRequired r kind resource) (h : s.apply r kind resource = .ok v) :
    ¬DeclaresRequired r kind v := by
  obtain ⟨urn, hurn, id, hsame, hempties⟩ := hs
  intro hall
  have hgone := hempties.undeclared h
  rw [← declaresUrn_congr hsame, hall urn hurn] at hgone
  cases hgone

/-- A step that leaves every required extension a member keeps the required extensions declared. -/
theorem DeclaresRequired.step {resource : Json} (h : DeclaresRequired r kind resource)
    (hmembers : ¬s.EmptiesRequired r kind resource) (hs : s.apply r kind resource = .ok v) :
    DeclaresRequired r kind v := by
  intro urn hurn
  have hdeclared := h urn hurn
  cases resource with
  | obj root =>
    obtain ⟨items, hi, hany⟩ := exists_items hdeclared
    obtain ⟨root', items', rfl, hi', hlisting⟩ := (PatchStep.outcome hs).listing hi
    rw [declaresUrn_of_items hi']
    cases hlisting with
    | kept => exact hany
    | declared => exact any_withUrn hany
    | @withdrawn e _ cause =>
      refine any_withoutUrn ?_ hany
      rw [sameName_comm]
      rcases cause with hempties | hoptional
      · rw [Bool.eq_false_iff]
        exact fun hsame => hmembers ⟨urn, hurn, e.id, hsame, hempties⟩
      · exact hoptional urn hurn
  | _ => simp [declaresUrn, member?, members?] at hdeclared

/-- Operations that succeed keep every required extension declared when none of their steps leaves
one without members, and just then the required extensions are declared all along. -/
theorem Operation.applyAll_declaresRequired {resource : Json} {ops : List Operation}
    (h : DeclaresRequired r kind resource)
    (happly : Operation.applyAll r kind ops resource = .ok v) :
    (PatchStep.Never r kind (PatchStep.EmptiesRequired r kind)
        (ops.flatMap (Operation.steps kind)) resource → DeclaresRequired r kind v) ∧
    (PatchStep.Throughout r kind (DeclaresRequired r kind)
        (ops.flatMap (Operation.steps kind)) resource ↔
      PatchStep.Never r kind (PatchStep.EmptiesRequired r kind)
        (ops.flatMap (Operation.steps kind)) resource) := by
  have hrun := Operation.applyAll_run happly
  have hkeep (s : PatchStep) (resource resource' : Json) (h : DeclaresRequired r kind resource)
      (hmembers : ¬s.EmptiesRequired r kind resource)
      (hs : s.apply r kind resource = .ok resource') : DeclaresRequired r kind resource' :=
    h.step hmembers hs
  exact ⟨fun hnever => PatchStep.run_keeps_of_never hkeep h hnever hrun,
    PatchStep.throughout_iff_never hkeep (fun _ _ _ hs happly => hs.not_declaresRequired happly)
      h hrun⟩

/-- A desk is given before the floor is taken away, so that the extension always holds something. -/
def changeSeat : List Operation :=
  [.replace (some "urn:seat:desk") (.str "B"), .remove (some "urn:seat:floor") none]

theorem applyAll_declaresRequired_changeSeat :
    DeclaresRequired (seatRegistry true) .user (.obj seatedUser) ∧
    PatchStep.Never (seatRegistry true) .user (PatchStep.EmptiesRequired (seatRegistry true) .user)
      (changeSeat.flatMap (Operation.steps .user)) (.obj seatedUser) ∧
    ∃ v, Operation.applyAll (seatRegistry true) .user changeSeat (.obj seatedUser) = .ok v ∧
      DeclaresRequired (seatRegistry true) .user v := by
  have h : DeclaresRequired (seatRegistry true) .user (.obj seatedUser) := by decide
  obtain ⟨v, hv⟩ := exists_ok (show (Operation.applyAll (seatRegistry true) .user changeSeat
    (.obj seatedUser)).toBool = true by decide)
  obtain ⟨hdeclared, hiff⟩ := Operation.applyAll_declaresRequired h hv
  have hnever := hiff.mp (by decide)
  exact ⟨h, hnever, v, hv, hdeclared hnever⟩

/-- The removal of the only member takes the required extension off the list. -/
theorem applyAll_undeclares_required :
    DeclaresRequired (seatRegistry true) .user (.obj seatedUser) ∧
    ∃ v, Operation.applyAll (seatRegistry true) .user [.remove (some "urn:seat:floor") none]
        (.obj seatedUser) = .ok v ∧ ¬DeclaresRequired (seatRegistry true) .user v :=
  ⟨by decide, .obj [("schemas", .arr [.str Urn.user]), ("userName", .str "bj")],
    by decide, by decide⟩

end Roster
