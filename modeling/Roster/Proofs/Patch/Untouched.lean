import Roster.Proofs.Patch.Names

/-! Members that no modification reaches, and the form in which the members of a group are left. -/

namespace Roster

/-! ### Members out of reach -/

/-- What shares its name with no writable attribute is held as it was after every edit of one. -/
theorem unreached_holder {definitions : List Attribute} {key : String}
    (hattributes : ∀ a, Defined definitions a → sameName key a.name = false) (x : Option Json) :
    HolderRule definitions False (fun _ _ => True) fun root => Members.get? root key = x where
  value _ := anyValue_rule _ False
  found _ _ _ := trivial
  set h hd _ := (Members.get?_set_of_not_same _ (hattributes _ hd)).trans h
  putHeld h hd _ := (Members.get?_putHeld_of_not_same _ (hattributes _ hd)).trans h
  remove h hd _ := (Members.get?_remove_of_not_same (hattributes _ hd)).trans h

/-- What shares its name with no writable attribute, no extension and not with the list of schemas
is held as it was after every modification. -/
theorem unreached_rule {r : Registry} {kind : Kind} {key : String}
    (hattributes : ∀ a, Defined kind.attributes a → sameName key a.name = false)
    (hextensions : ∀ s, Registered r kind s → sameName key s.id = false)
    (hschemas : sameName key "schemas" = false) (x : Option Json) :
    PatchRule r kind False (fun _ _ => True) (fun _ _ => True) (fun _ _ => True)
      fun root => Members.get? root key = x where
  root := unreached_holder hattributes x
  inner _ := anyHolder_rule _ False
  empty _ := trivial
  object _ _ _ _ := Iff.rfl
  innerObject _ _ _ := Iff.rfl
  checked _ _ := trivial
  merged _ _ _ := trivial
  extension _ _ _ := trivial
  setExtension h hs _ := (Members.get?_set_of_not_same _ (hextensions _ hs)).trans h
  putExtension h hs _ := (Members.get?_putHeld_of_not_same _ (hextensions _ hs)).trans h
  removeExtension h hs := (Members.get?_remove_of_not_same (hextensions _ hs)).trans h
  schemas h := (Members.get?_putHeld_of_not_same _ hschemas).trans h

/-- The names of what only the server writes are out of reach. -/
theorem readOnly_rule {r : Registry} {kind : Kind} {key : String} (hro : kind.isReadOnly key = true)
    (hs : sameName key "schemas" = false) (x : Option Json) :
    PatchRule r kind False (fun _ _ => True) (fun _ _ => True) (fun _ _ => True)
      fun root => Members.get? root key = x := by
  obtain ⟨b, hb, hbro⟩ := Option.any_eq_true _ _ |>.mp hro
  have hurn : isUrn key = false := by
    rw [← isUrn_congr (findAttribute?_sameName hb)]
    exact attributes_not_urn kind b (findAttribute?_mem hb)
  apply unreached_rule
  · -- an attribute that clients may write has another name
    intro a hd
    rw [Bool.eq_false_iff]
    intro hsame
    have hab : some b = some a := by
      rw [← hd.found, ← findAttribute?_congr _ hsame, ← hb]
      rfl
    cases hab
    simp [hd.writable] at hbro
  · intro s hreg
    exact extension_not_same hreg hurn
  · exact hs

/-- Operations leave the read-only members of a resource as they are. -/
theorem Operation.applyAll_readOnly {r : Registry} {kind : Kind} {key : String}
    (hro : kind.isReadOnly key = true) (hs : sameName key "schemas" = false)
    {ops : List Operation} {resource v : Json} (ho : resource.isObject = true)
    (h : Operation.applyAll r kind ops resource = .ok v) : v.get? key = resource.get? key := by
  cases resource with
  | obj root =>
    obtain ⟨root', rfl, hr⟩ := (readOnly_rule hro hs (Members.get? root key)).applyAll rfl h
    exact hr
  | _ => simp [Json.isObject] at ho

/-! ### The frame of a modification -/

/-- The names under which a client may change something at the top of a resource. -/
inductive Registry.Writes (r : Registry) (kind : Kind) (key : String) : Prop where
  | writable (a : Attribute) : a ∈ kind.attributes → a.isReadOnly = false →
      sameName a.name key = true → Writes r kind key
  | extension (e : Extension) : e ∈ r.extensionsFor kind → sameName e.schema.id key = true →
      Writes r kind key
  | schemas : sameName "schemas" key = true → Writes r kind key

/-- Every extension that a path can address is registered for the kind. -/
theorem registered_extensionsFor {r : Registry} {kind : Kind} {s : Schema}
    (h : Registered r kind s) : ∃ e ∈ r.extensionsFor kind, e.schema = s := by
  obtain ⟨urn, hs, -⟩ := h
  obtain ⟨e, he, hschema, -⟩ := Registry.extension?_some hs
  exact ⟨e, he, hschema⟩

/-- A name that a client may not write is out of reach. -/
theorem unwritten_rule {r : Registry} {kind : Kind} {key : String} (hw : ¬r.Writes kind key)
    (x : Option Json) :
    PatchRule r kind False (fun _ _ => True) (fun _ _ => True) (fun _ _ => True)
      fun root => Members.get? root key = x := by
  apply unreached_rule
  · intro a hd
    rw [Bool.eq_false_iff, sameName_comm]
    intro hsame
    exact hw (.writable a (findAttribute?_mem hd.found) hd.writable hsame)
  · intro s hreg
    obtain ⟨e, he, rfl⟩ := registered_extensionsFor hreg
    rw [Bool.eq_false_iff, sameName_comm]
    intro hsame
    exact hw (.extension e he hsame)
  · rw [Bool.eq_false_iff, sameName_comm]
    intro hsame
    exact hw (.schemas hsame)

/-- The names, in any letter case, of what the server alone puts into a resource of a kind. -/
def Kind.serverNames (kind : Kind) : List String :=
  match kind with
  | .user => ["id", "meta", "groups"]
  | .group => ["id", "meta"]

theorem serverNames_readOnly (kind : Kind) : ∀ name ∈ kind.serverNames,
    kind.isReadOnly name = true ∧ sameName name "schemas" = false := by
  cases kind <;> decide +kernel

theorem isReadOnly_congr {kind : Kind} {a b : String} (h : sameName a b = true) :
    kind.isReadOnly a = kind.isReadOnly b := by
  unfold Kind.isReadOnly Kind.attribute?
  rw [findAttribute?_congr _ h]

/-- Operations change no member of a resource but those that a client may write: every other one is
held with the same value as before, and none is new. Whatever the registry, the identifier and the
metadata of a resource and the groups of a user are among those others, in every letter case. -/
theorem Operation.applyAll_frame {r : Registry} {kind : Kind} {root : Members Json}
    {ops : List Operation} {v : Json} (h : Operation.applyAll r kind ops (.obj root) = .ok v) :
    ∃ root', v = .obj root' ∧
      (∀ key, ¬r.Writes kind key → Members.get? root' key = Members.get? root key) ∧
      ∀ name ∈ kind.serverNames, ∀ key, sameName name key = true →
        Members.get? root' key = Members.get? root key := by
  have reserved {name key : String} (hn : name ∈ kind.serverNames)
      (hk : sameName name key = true) :
      kind.isReadOnly key = true ∧ sameName key "schemas" = false := by
    obtain ⟨hro, hs⟩ := serverNames_readOnly kind name hn
    refine ⟨isReadOnly_congr hk ▸ hro, ?_⟩
    rw [Bool.eq_false_iff] at hs ⊢
    intro hschemas
    exact hs (sameName_trans hk hschemas)
  have hid : "id" ∈ kind.serverNames := by cases kind <;> decide
  obtain ⟨hro, hs⟩ := reserved hid (sameName_refl "id")
  obtain ⟨root', rfl, -⟩ := (readOnly_rule hro hs (Members.get? root "id")).applyAll rfl h
  refine ⟨root', rfl, fun key hw => ?_, fun name hn key hk => ?_⟩
  · obtain ⟨_, hroot, hkept⟩ := (unwritten_rule hw (Members.get? root key)).applyAll rfl h
    cases hroot
    exact hkept
  · obtain ⟨hro, hs⟩ := reserved hn hk
    obtain ⟨_, hroot, hkept⟩ := (readOnly_rule hro hs (Members.get? root key)).applyAll rfl h
    cases hroot
    exact hkept

/-- A user with members of the server and with one that no schema knows. -/
def annotatedUser : Members Json :=
  [("groups", .arr [.obj [("value", .str "g1")]]), ("id", .str "u1"),
    ("meta", .obj [("resourceType", .str "User")]), ("note", .str "kept"),
    ("schemas", .arr [.str Urn.user]), ("userName", .str "bjensen")]

/-- Additions and replacements that name members of the server among others. -/
def annotatedOperations : List Operation :=
  [.add none (.obj [("ID", .str "u2"), ("Groups", .arr []), ("DisplayName", .str "Babs")]),
    .replace (some "NAME.givenName") (.str "Barbara"),
    .add none (.obj [("urn:ietf:params:scim:schemas:extension:enterprise:2.0:user",
      .obj [("department", .str "Sales")])]),
    .remove (some "displayname") none]

theorem applyAll_frame_annotated : ¬Registry.standard.Writes .user "note" ∧
    ∃ v root', Operation.applyAll Registry.standard .user annotatedOperations
        (.obj annotatedUser) = .ok v ∧ v = .obj root' ∧
      Members.get? root' "note" = Members.get? annotatedUser "note" ∧
      Members.get? root' "groups" = Members.get? annotatedUser "groups" := by
  have hnote : ¬Registry.standard.Writes .user "note" := by
    intro hw
    cases hw with
    | writable a ha _ hs =>
      have hother : ∀ a ∈ Kind.user.attributes, sameName a.name "note" = false := by
        decide +kernel
      simp [hother a ha] at hs
    | extension e he hs =>
      have hother : ∀ e ∈ Registry.standard.extensionsFor .user,
          sameName e.schema.id "note" = false := by decide +kernel
      simp [hother e he] at hs
    | schemas hs => exact absurd hs (by decide +kernel)
  obtain ⟨v, hv⟩ := exists_ok (show (Operation.applyAll Registry.standard .user
    annotatedOperations (.obj annotatedUser)).toBool = true by decide +kernel)
  obtain ⟨root', hroot, hframe, hserver⟩ := Operation.applyAll_frame hv
  exact ⟨hnote, v, root', hv, hroot, hframe "note" hnote,
    hserver "groups" (by decide) "groups" (sameName_refl _)⟩

/-! ### Members of a fixed spelling -/

/-- A member is held under this very name, if at all, and its value has a property. -/
structure HeldAs (name : String) (ok : Json → Prop) (root : Members Json) : Prop where
  spelled : ∀ k ∈ Members.keys root, sameName name k = true → k = name
  held : ∀ v, Members.get? root name = some v → ok v

namespace HeldAs

variable {root : Members Json} {name key : String} {ok : Json → Prop} {v : Json}

theorem found (h : HeldAs name ok root) (hf : Members.find? root name = some v) : ok v :=
  h.held v (by rwa [← Members.find?_eq_get? h.spelled])

theorem of_insert (h : HeldAs name ok root) (hn : sameName name key = true → key = name)
    (hv : key = name → ok v) : HeldAs name ok (Members.insert root key v) where
  spelled k hk hs := by
    rcases (Members.mem_keys_insert v).mp hk with rfl | hk
    · exact hn hs
    · exact h.spelled k hk hs
  held w hw := by
    by_cases hname : name = key
    · subst hname
      rw [Members.get?_insert_self] at hw
      exact Option.some.inj hw ▸ hv rfl
    · rw [Members.get?_insert_of_ne root v hname] at hw
      exact h.held w hw

theorem of_erase (h : HeldAs name ok root) (key : String) :
    HeldAs name ok (Members.erase root key) where
  spelled k hk hs := h.spelled k (Members.mem_keys_erase.mp hk).2 hs
  held w hw := by
    by_cases hkey : name = key
    · subst hkey
      simp [Members.get?_erase_self] at hw
    · rw [Members.get?_erase_of_ne root hkey] at hw
      exact h.held w hw

theorem set (h : HeldAs name ok root) (hn : sameName name key = true → key = name)
    (hv : key = name → ok v) : HeldAs name ok (Members.set root key v) := by
  unfold Members.set
  split
  · split_ifs
    · exact h.of_insert hn hv
    · exact (h.of_erase _).of_insert hn hv
  · exact h.of_insert hn hv

theorem putHeld (h : HeldAs name ok root) (hn : sameName name key = true → key = name)
    (hv : key = name → ok v) : HeldAs name ok (Members.putHeld root key v) := by
  have hkey : sameName name ((Members.key? root key).getD key) = true →
      (Members.key? root key).getD key = name := by
    intro hs
    -- the member is put under its own name, or under a spelling that is held
    rcases Members.heldKey_eq_or_mem root key with heq | hmem
    · rw [heq] at hs ⊢
      exact hn hs
    · exact h.spelled _ hmem hs
  refine h.of_insert hkey fun heq => hv (hn ?_)
  have hsame := Members.heldKey_sameName root key
  rwa [heq, sameName_comm] at hsame

theorem remove (h : HeldAs name ok root) (key : String) :
    HeldAs name ok (Members.remove root key) := by
  unfold Members.remove
  split
  · exact h.of_erase _
  · exact h

end HeldAs

/-- A member that is neither a URN nor the list of schemas keeps its spelling and the property of
its value under every modification, if the edits of its attribute keep that property. -/
theorem heldAs_rule (r : Registry) {kind : Kind} {name : String} {ok : Json → Prop}
    (hurn : isUrn name = false) (hschemas : sameName name "schemas" = false)
    (hspelled : ∀ a ∈ kind.attributes, sameName name a.name = true → a.name = name)
    (hvalue : ∀ a, Defined kind.attributes a → a.name = name → ValueRule a False ok)
    (hsimple : ∀ a, Defined kind.attributes a → a.name = name → a.multiValued = false →
      a.type ≠ .complex) :
    PatchRule r kind False (fun a v => a.name = name → ok v) (fun _ _ => True) (fun _ _ => True)
      (HeldAs name ok) := by
  have spelled {a : Attribute} (hd : Defined kind.attributes a) :
      sameName name a.name = true → a.name = name :=
    hspelled a (findAttribute?_mem hd.found)
  have other {key : String} (hk : sameName name key = false) :
      (sameName name key = true → key = name) ∧ ∀ v, key = name → ok v := by
    refine ⟨fun hs => ?_, fun v hn => ?_⟩
    · rw [hk] at hs
      cases hs
    · rw [hn, sameName_refl] at hk
      cases hk
  exact {
    root := {
      value := fun {a} hd => by
        by_cases hname : a.name = name
        · simpa only [hname, forall_const] using hvalue a hd hname
        · -- of other attributes nothing is said
          simpa only [hname, false_implies] using anyValue_rule a False
      found := fun h _ hf hname => h.found (hname ▸ hf)
      set := fun h hd hv => h.set (spelled hd) hv
      putHeld := fun h hd hv => h.putHeld (spelled hd) hv
      remove := fun h _ _ => h.remove _ }
    inner := fun _ => anyHolder_rule _ False
    empty := fun _ => trivial
    object := fun hd hm hc _ => iff_true_intro fun hname => absurd hc (hsimple _ hd hname hm)
    innerObject := fun _ _ _ => Iff.rfl
    checked := fun _ _ => trivial
    merged := fun _ _ _ => trivial
    extension := fun _ _ _ => trivial
    setExtension := fun h hs _ =>
      h.set (other (extension_not_same hs hurn)).1 ((other (extension_not_same hs hurn)).2 _)
    putExtension := fun h hs _ =>
      h.putHeld (other (extension_not_same hs hurn)).1 ((other (extension_not_same hs hurn)).2 _)
    removeExtension := fun h _ => h.remove _
    schemas := fun h => h.putHeld (other hschemas).1 ((other hschemas).2 _) }

/-! ### The members of a group -/

/-- Members of a group are held as a list, under this very name. -/
structure MembersListed (root : Members Json) : Prop where
  spelled : ∀ k ∈ Members.keys root, sameName "members" k = true → k = "members"
  listed : ∀ v, Members.get? root "members" = some v → ∃ items, v = .arr items

theorem membersListed_iff {root : Members Json} :
    MembersListed root ↔ HeldAs "members" (fun v => ∃ items, v = .arr items) root :=
  ⟨fun h => ⟨h.spelled, h.listed⟩, fun h => ⟨h.spelled, h.held⟩⟩

/-- Among the attributes of a group there is one by the name of `members`, which holds a list. -/
theorem members_attribute : ∀ a ∈ Kind.group.attributes,
    sameName "members" a.name = true → a.name = "members" ∧ a.multiValued = true := by
  decide +kernel

/-- Modifications leave the members of a group as a list under this very name. -/
theorem membersListed_rule (r : Registry) :
    PatchRule r .group False (fun a v => a.name = "members" → ∃ items, v = .arr items)
      (fun _ _ => True) (fun _ _ => True) MembersListed := by
  have listed {a : Attribute} (hd : Defined Kind.group.attributes a) (hn : a.name = "members") :
      a.multiValued = true :=
    (members_attribute a (findAttribute?_mem hd.found) (hn ▸ sameName_refl _)).2
  have hiff : MembersListed = HeldAs "members" fun v => ∃ items, v = .arr items :=
    funext fun root => propext membersListed_iff
  rw [hiff]
  refine heldAs_rule r (by decide +kernel) (by decide +kernel)
    (fun a ha hs => (members_attribute a ha hs).1) (fun a hd hn => ?_) (fun a hd hn hm => ?_)
  · -- every edit of a list leaves a list
    refine ⟨fun _ => ?_, fun hm => ?_, fun hm => ?_⟩
    · exact ⟨⟨_, rfl⟩, fun _ _ => ⟨_, rfl⟩, fun _ _ => ⟨_, rfl⟩, fun _ _ _ _ _ => ⟨_, rfl⟩,
        fun _ _ _ _ => ⟨_, rfl⟩, fun _ _ _ => ⟨_, rfl⟩, fun _ _ => ⟨_, rfl⟩, fun _ _ _ => ⟨_, rfl⟩⟩
    · simp [listed hd hn] at hm
    · simp [listed hd hn] at hm
  · simp [listed hd hn] at hm

/-! ### Required attributes -/

/-- Modifications keep the required attributes of a kind. -/
theorem required_rule (r : Registry) {kind : Kind} {a : Attribute}
    (ha : a ∈ kind.coreSchema.attributes) (hr : a.required = true) :
    PatchRule r kind False (fun _ _ => True) (fun _ _ => True) (fun _ _ => True)
      fun root => (Members.find? root a.name).isSome = true where
  root := {
    value := fun _ => anyValue_rule _ False
    found := fun _ _ _ => trivial
    set := fun h _ _ => Members.find?_set_isSome _ h
    putHeld := fun h _ _ => Members.find?_putHeld_isSome _ h
    remove := fun h hd hremovable => by
      rwa [Members.find?_remove_of_not_same (required_not_same ha hr hd hremovable)] }
  inner _ := anyHolder_rule _ False
  empty _ := trivial
  object _ _ _ _ := Iff.rfl
  innerObject _ _ _ := Iff.rfl
  checked _ _ := trivial
  merged _ _ _ := trivial
  extension _ _ _ := trivial
  setExtension h _ _ := Members.find?_set_isSome _ h
  putExtension h _ _ := Members.find?_putHeld_isSome _ h
  removeExtension h hs := by
    rwa [Members.find?_remove_of_not_same (extension_not_same hs
      (attributes_not_urn kind a (List.mem_append_right _ ha)))]
  schemas h := Members.find?_putHeld_isSome _ h

end Roster
