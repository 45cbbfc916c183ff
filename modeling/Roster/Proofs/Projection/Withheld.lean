import Roster.Proofs.Patch.Names
import Roster.Proofs.Success
import Roster.Projection

/-! What is never returned stays with the server: no projection shows it, and none shows anything
else because of it. -/

namespace Roster

/-! ### What is never returned -/

def Attribute.isNever (a : Attribute) : Bool :=
  a.returned == .never

/-- Whether a member has one of these definitions, and that one is never returned. -/
def neverAmong (attributes : List Attribute) (name : String) : Bool :=
  (findAttribute? attributes name).any Attribute.isNever

/-- The members of a complex value that may be returned. -/
def Attribute.spare (a : Attribute) (ms : Members Json) : Members Json :=
  ms.filter fun m => !neverAmong a.subAttributes m.1

/-- The value without the sub-attributes that are never returned. Its objects and lists stay, be it
empty. -/
def Attribute.withhold (a : Attribute) : Json → Json
  | .obj members => .obj (a.spare members)
  | .arr items => .arr (items.map fun item =>
      match item with
      | .obj members => .obj (a.spare members)
      | item => item)
  | v => v

/-- A member without what is never returned of it; none where it is never returned itself. -/
def withholdMember (attributes : List Attribute) (m : String × Json) : Option (String × Json) :=
  match findAttribute? attributes m.1 with
  | none => some m
  | some a => if a.isNever then none else some (m.1, a.withhold m.2)

/-- A member of a resource, an attribute or an extension, without what is never returned of it. -/
def Registry.withholdMember (r : Registry) (kind : Kind) (m : String × Json) :
    Option (String × Json) :=
  match r.extension? kind m.1 with
  | some s =>
    match m.2 with
    | .obj members => some (m.1, .obj (members.filterMap (Roster.withholdMember s.attributes)))
    | v => some (m.1, v)
  | none => Roster.withholdMember kind.attributes m

/-- The resource without the attributes, extension attributes and sub-attributes that are never
returned. -/
def Registry.withhold (r : Registry) (kind : Kind) : Json → Json
  | .obj root => .obj (root.filterMap (r.withholdMember kind))
  | v => v

/-- An object of the value, or one in the list that it is, has a sub-attribute that is never
returned. -/
def Attribute.Bares (a : Attribute) (v : Json) : Prop :=
  ∃ o, Json.obj o ∈ v.flatten ∧ ∃ m ∈ o, neverAmong a.subAttributes m.1 = true

/-- A member with one of these definitions is never returned, as a whole or in part. -/
def BaresMember (attributes : List Attribute) (m : String × Json) : Prop :=
  ∃ a, findAttribute? attributes m.1 = some a ∧ (a.isNever = true ∨ a.Bares m.2)

/-- Something that is never returned stands in the resource. -/
inductive Registry.Bares (r : Registry) (kind : Kind) : Json → Prop where
  | core {root : Members Json} {m : String × Json} : m ∈ root →
      r.extension? kind m.1 = none → BaresMember kind.attributes m → r.Bares kind (.obj root)
  | extended {root o : Members Json} {key : String} {s : Schema} {m : String × Json} :
      (key, .obj o) ∈ root → r.extension? kind key = some s → m ∈ o →
      BaresMember s.attributes m → r.Bares kind (.obj root)

namespace Projection

variable {a : Attribute} {wanted : String → Bool}

/-! ### Sub-attributes -/

theorem keepMembers_eq (a : Attribute) (wanted : String → Bool) (ms : Members Json) :
    keepMembers a wanted ms = (a.spare ms).filter fun m =>
      (a.subAttribute? m.1).any (·.returned == .always) || wanted m.1 := by
  unfold keepMembers Attribute.spare
  rw [List.filter_filter]
  refine List.filter_congr fun m _ => ?_
  cases hsub : a.subAttribute? m.1 with
  | none =>
    have hnever : neverAmong a.subAttributes m.1 = false := congrArg (Option.any _) hsub
    simp [hnever]
  | some sub =>
    have hnever : neverAmong a.subAttributes m.1 = sub.isNever := congrArg (Option.any _) hsub
    rw [hnever]
    cases hr : sub.returned <;> simp [Attribute.isNever, hr, BEq.beq]

theorem spare_spare (a : Attribute) (ms : Members Json) : a.spare (a.spare ms) = a.spare ms := by
  unfold Attribute.spare
  rw [List.filter_filter]
  exact List.filter_congr fun m _ => Bool.and_self _

theorem keepMembers_spare (a : Attribute) (wanted : String → Bool) (ms : Members Json) :
    keepMembers a wanted (a.spare ms) = keepMembers a wanted ms := by
  rw [keepMembers_eq, keepMembers_eq, spare_spare]

/-- A member that is kept is none that is never returned. -/
theorem not_never_of_mem_keepMembers {ms : Members Json} {m : String × Json}
    (h : m ∈ keepMembers a wanted ms) : neverAmong a.subAttributes m.1 = false := by
  rw [keepMembers_eq] at h
  have hspared := (List.mem_filter.mp (List.mem_filter.mp h).1).2
  simpa using hspared

theorem keepSubs?_withhold (a : Attribute) (wanted : String → Bool) (v : Json) :
    keepSubs? a wanted (a.withhold v) = keepSubs? a wanted v := by
  cases v with
  | obj members => simp only [Attribute.withhold, keepSubs?, keepMembers_spare]
  | arr items =>
    refine congrArg (fun kept : List Json => if kept.isEmpty then none else some (Json.arr kept)) ?_
    rw [List.filterMap_map]
    refine List.filterMap_congr fun item _ => ?_
    cases item <;> simp only [Function.comp_apply, keepMembers_spare]
  | _ => rfl

/-- No kept part of a value bares anything. -/
theorem not_bares_keepSubs? {v w : Json} (h : keepSubs? a wanted v = some w) : ¬ a.Bares w := by
  rintro ⟨o, ho, m, hm, hnever⟩
  suffices hkept : ∃ members, o = keepMembers a wanted members by
    obtain ⟨members, rfl⟩ := hkept
    rw [not_never_of_mem_keepMembers hm] at hnever
    cases hnever
  cases v with
  | obj members =>
    simp only [keepSubs?] at h
    split_ifs at h
    cases h
    exact ⟨members, by simpa [Json.flatten] using ho⟩
  | arr items =>
    simp only [keepSubs?] at h
    split_ifs at h
    cases h
    obtain ⟨item, -, hitem⟩ := List.mem_filterMap.mp ho
    cases item with
    | obj members =>
      simp only at hitem
      split_ifs at hitem
      exact ⟨members, by simpa using hitem.symm⟩
    | _ => simp at hitem
  | _ =>
    cases h
    simp [Json.flatten] at ho

theorem withoutNever_withhold (a : Attribute) (v : Json) :
    withoutNever a (a.withhold v) = withoutNever a v := by
  unfold withoutNever
  split_ifs with hall
  · -- nothing is never returned here, so nothing is withheld
    have hspare (ms : Members Json) : a.spare ms = ms := by
      refine List.filter_eq_self.mpr fun m _ => ?_
      cases hsub : findAttribute? a.subAttributes m.1 with
      | none => simp [neverAmong, hsub]
      | some sub =>
        have hsub' := List.all_eq_true.mp hall sub (findAttribute?_mem hsub)
        simpa [neverAmong, hsub, Attribute.isNever] using hsub'
    cases v with
    | obj members => simp only [Attribute.withhold, hspare]
    | arr items =>
      simp only [Attribute.withhold]
      refine congrArg Json.arr (List.map_id'' (fun item => ?_) items)
      cases item <;> simp only [hspare]
    | _ => rfl
  · rw [keepSubs?_withhold]

theorem not_bares_withoutNever (a : Attribute) (v : Json) : ¬ a.Bares (withoutNever a v) := by
  unfold withoutNever
  split_ifs with hall
  · rintro ⟨o, -, m, -, hnever⟩
    obtain ⟨sub, hsub, hn⟩ := Option.any_eq_true _ _ |>.mp hnever
    have hall' := List.all_eq_true.mp hall sub (findAttribute?_mem hsub)
    simp [Attribute.isNever] at hn
    simp [hn] at hall'
  · cases hk : keepSubs? a (fun _ => true) v with
    | some w => exact not_bares_keepSubs? hk
    | none => simp [Attribute.Bares, Json.flatten]

/-! ### Members -/

variable {extension : Option String} {attributes : List Attribute}

theorem leaveOut_withhold (p : Projection) (extension : Option String) (a : Attribute) (v : Json) :
    p.leaveOut extension a (a.withhold v) = p.leaveOut extension a v := by
  simp only [leaveOut, withoutNever_withhold, keepSubs?_withhold]

theorem not_bares_leaveOut {p : Projection} {v w : Json}
    (h : p.leaveOut extension a v = some w) : ¬ a.Bares w := by
  unfold leaveOut at h
  split at h
  · cases h
    exact not_bares_withoutNever a v
  · split at h
    · cases h
    · exact not_bares_keepSubs? h

/-- What is shown of a member is what is shown of it without what is never returned. -/
theorem member?_withhold (p : Projection) (extension : Option String)
    (attributes : List Attribute) (m : String × Json) :
    (withholdMember attributes m).bind
        (fun m => (p.member? extension attributes m.1 m.2).map (m.1, ·)) =
      (p.member? extension attributes m.1 m.2).map (m.1, ·) := by
  unfold withholdMember
  cases hfind : findAttribute? attributes m.1 with
  | none => rfl
  | some a =>
    cases hnever : a.isNever with
    | true =>
      have hr : a.returned = .never := by simpa [Attribute.isNever] using hnever
      simp [member?, hfind, hr]
    | false =>
      have hsame : p.member? extension attributes m.1 (a.withhold m.2) =
          p.member? extension attributes m.1 m.2 := by
        simp only [member?, hfind, withoutNever_withhold, keepSubs?_withhold, leaveOut_withhold]
      simp only [hnever, Bool.false_eq_true, if_false, Option.bind_some, hsame]

/-- A member that is shown bares nothing. -/
theorem not_bares_member? {p : Projection} {key : String} {v w : Json}
    (h : p.member? extension attributes key v = some w) : ¬ BaresMember attributes (key, w) := by
  rintro ⟨a, hfind, hbares⟩
  unfold member? at h
  simp only at hfind
  simp only [hfind] at h
  have hwhole : a.isNever = false := by
    rw [Bool.eq_false_iff]
    intro hnever
    have hr : a.returned = .never := by simpa [Attribute.isNever] using hnever
    simp [hr] at h
  have hpart : a.Bares w := hbares.resolve_left (by simp [hwhole])
  refine absurd hpart ?_
  split at h
  · cases h
  · cases h
    exact not_bares_withoutNever a v
  · split at h
    · cases h
    · split at h
      · exact not_bares_keepSubs? h
      · exact not_bares_leaveOut h
  · cases h
  · exact not_bares_leaveOut h

/-! ### Resources -/

/-- What is shown of an extension is what is shown of it without what is never returned. -/
theorem extension?_withhold (p : Projection) (urn : String) (attributes : List Attribute)
    (o : Members Json) :
    p.extension? urn attributes (.obj (o.filterMap (withholdMember attributes))) =
      p.extension? urn attributes (.obj o) := by
  have hmembers (q : Projection) :
      (o.filterMap (withholdMember attributes)).filterMap
          (fun m => (q.member? (some urn) attributes m.1 m.2).map (m.1, ·)) =
        o.filterMap (fun m => (q.member? (some urn) attributes m.1 m.2).map (m.1, ·)) := by
    rw [List.filterMap_filterMap]
    exact List.filterMap_congr fun m _ => q.member?_withhold (some urn) attributes m
  simp only [extension?, hmembers]

/-- The members of an extension that is shown are shown members. -/
theorem mem_of_extension? {p : Projection} {urn : String} {v : Json} {o : Members Json}
    (h : p.extension? urn attributes v = some (.obj o)) {m : String × Json} (hm : m ∈ o) :
    ∃ (q : Projection) (w : Json), q.member? (some urn) attributes m.1 w = some m.2 := by
  unfold extension? at h
  simp only at h
  split_ifs at h
  all_goals
    split at h
    · split_ifs at h
      cases h
      obtain ⟨n, -, hn⟩ := List.mem_filterMap.mp hm
      obtain ⟨w, hw, rfl⟩ := Option.map_eq_some_iff.mp hn
      exact ⟨_, n.2, hw⟩
    · rename_i hobj
      cases h
      exact absurd rfl (hobj o)

/-- Where extensions have URNs for identifiers, no other name is that of an extension. -/
theorem extension?_eq_none_of_not_urn {r : Registry}
    (hr : ∀ e ∈ r.extensions, isUrn e.schema.id = true) (kind : Kind) {name : String}
    (hname : isUrn name = false) : r.extension? kind name = none := by
  rw [Registry.extension?, Option.map_eq_none_iff]
  refine List.find?_eq_none.mpr fun e he hsame => ?_
  rw [Bool.and_eq_true] at hsame
  rw [← isUrn_congr hsame.2, hr e he] at hname
  cases hname

theorem extension?_schemas {r : Registry} (hr : ∀ e ∈ r.extensions, isUrn e.schema.id = true)
    (kind : Kind) : r.extension? kind "schemas" = none :=
  extension?_eq_none_of_not_urn hr kind (by decide)

/-- The list of schemas is no attribute of a kind. -/
theorem findAttribute?_schemas (kind : Kind) : findAttribute? kind.attributes "schemas" = none :=
  List.find?_eq_none.mpr fun a ha => by simp [schemas_not_attribute kind a ha]

/-- The shown form of a member of a resource. -/
def shown? (p : Projection) (r : Registry) (kind : Kind) (m : String × Json) :
    Option (String × Json) :=
  if m.1 = "schemas" then some m
  else
    let shown := match r.extension? kind m.1 with
      | some s => p.extension? m.1 s.attributes m.2
      | none => p.member? none kind.attributes m.1 m.2
    shown.map (m.1, ·)

theorem apply_obj (p : Projection) (r : Registry) (kind : Kind) (root : Members Json) :
    p.apply r kind (.obj root) = .obj (root.filterMap (p.shown? r kind)) :=
  rfl

theorem shown?_schemas (p : Projection) (r : Registry) (kind : Kind) {m : String × Json}
    (hm : m.1 = "schemas") : p.shown? r kind m = some m :=
  if_pos hm

theorem shown?_extension (p : Projection) {r : Registry} {kind : Kind} {m : String × Json}
    {s : Schema} (hm : m.1 ≠ "schemas") (hs : r.extension? kind m.1 = some s) :
    p.shown? r kind m = (p.extension? m.1 s.attributes m.2).map (m.1, ·) := by
  simp only [shown?, if_neg hm, hs]

theorem shown?_attribute (p : Projection) {r : Registry} {kind : Kind} {m : String × Json}
    (hm : m.1 ≠ "schemas") (hs : r.extension? kind m.1 = none) :
    p.shown? r kind m = (p.member? none kind.attributes m.1 m.2).map (m.1, ·) := by
  simp only [shown?, if_neg hm, hs]

theorem shown?_key {p : Projection} {r : Registry} {kind : Kind} {m n : String × Json}
    (h : p.shown? r kind m = some n) : n.1 = m.1 := by
  unfold shown? at h
  split_ifs at h
  · cases h
    rfl
  · obtain ⟨w, -, rfl⟩ := Option.map_eq_some_iff.mp h
    rfl

theorem withholdMember_key {m n : String × Json} (h : withholdMember attributes m = some n) :
    n.1 = m.1 := by
  unfold withholdMember at h
  split at h
  · cases h
    rfl
  · split_ifs at h
    cases h
    rfl

/-- What is shown of a member of a resource is what is shown of it without what is never
returned. -/
theorem shown?_withhold {r : Registry} {kind : Kind}
    (hschemas : r.extension? kind "schemas" = none) (p : Projection) (m : String × Json) :
    (r.withholdMember kind m).bind (p.shown? r kind) = p.shown? r kind m := by
  unfold Registry.withholdMember
  by_cases hm : m.1 = "schemas"
  · have hkept : withholdMember kind.attributes m = some m := by
      simp only [withholdMember, hm, findAttribute?_schemas]
    simp only [hm, hschemas, hkept, Option.bind_some]
  · cases hs : r.extension? kind m.1 with
    | some s =>
      obtain ⟨key, v⟩ := m
      cases v with
      | obj o =>
        have hinner (w : Json) : p.shown? r kind (key, w) =
            (p.extension? key s.attributes w).map (key, ·) := p.shown?_extension hm hs
        simp only [Option.bind_some, hinner, extension?_withhold]
      | _ => rfl
    | none =>
      rw [p.shown?_attribute hm hs, ← p.member?_withhold none kind.attributes m]
      refine Option.bind_congr fun n hn => ?_
      have hkey := withholdMember_key hn
      rw [p.shown?_attribute (hkey ▸ hm) (hkey ▸ hs)]

/-- No member that is shown of a resource bares anything. -/
theorem not_bares_shown? {r : Registry} {kind : Kind} {p : Projection} {m n : String × Json}
    (h : p.shown? r kind m = some n) (hs : r.extension? kind n.1 = none) :
    ¬ BaresMember kind.attributes n := by
  by_cases hm : m.1 = "schemas"
  · rw [p.shown?_schemas r kind hm] at h
    cases h
    rintro ⟨a, hfind, -⟩
    rw [hm, findAttribute?_schemas] at hfind
    cases hfind
  · have hkey : n.1 = m.1 := shown?_key h
    rw [p.shown?_attribute hm (hkey ▸ hs)] at h
    obtain ⟨w, hw, rfl⟩ := Option.map_eq_some_iff.mp h
    exact not_bares_member? hw

/-- No member that is shown of an extension bares anything. -/
theorem not_bares_shownExtension {r : Registry} {kind : Kind}
    (hschemas : r.extension? kind "schemas" = none) {p : Projection} {m : String × Json}
    {key : String} {o : Members Json} (h : p.shown? r kind m = some (key, .obj o)) {s : Schema}
    (hs : r.extension? kind key = some s) {n : String × Json} (hn : n ∈ o) :
    ¬ BaresMember s.attributes n := by
  have hkey : key = m.1 := shown?_key h
  have hm : m.1 ≠ "schemas" := by
    rintro hm
    rw [hkey, hm, hschemas] at hs
    cases hs
  rw [p.shown?_extension hm (hkey ▸ hs)] at h
  obtain ⟨w, hw, heq⟩ := Option.map_eq_some_iff.mp h
  obtain rfl : w = .obj o := congrArg Prod.snd heq
  obtain ⟨q, w, hq⟩ := mem_of_extension? hw hn
  exact not_bares_member? hq

/-- Nothing else is shown because of what is never returned. -/
theorem apply_withheld {r : Registry} {kind : Kind}
    (hschemas : r.extension? kind "schemas" = none) (p : Projection) (v : Json) :
    p.apply r kind (r.withhold kind v) = p.apply r kind v := by
  cases v with
  | obj root =>
    rw [Registry.withhold, apply_obj, apply_obj, List.filterMap_filterMap]
    exact congrArg Json.obj (List.filterMap_congr fun m _ => shown?_withhold hschemas p m)
  | _ => rfl

/-- Where extensions have URNs for identifiers, a projection shows of a resource what it shows of
the resource without everything that is never returned, and shows nothing of that, whatever
attributes are listed to be shown or to be left out. -/
theorem apply_withhold {r : Registry} (hr : ∀ e ∈ r.extensions, isUrn e.schema.id = true)
    (kind : Kind) (p : Projection) (v : Json) :
    p.apply r kind v = p.apply r kind (r.withhold kind v) ∧ ¬ r.Bares kind (p.apply r kind v) := by
  have hschemas := extension?_schemas hr kind
  refine ⟨(apply_withheld hschemas p v).symm, fun hbares => ?_⟩
  cases v with
  | obj root =>
    rw [apply_obj] at hbares
    cases hbares with
    | core hn hs hbare =>
      obtain ⟨m, -, hm⟩ := List.mem_filterMap.mp hn
      exact not_bares_shown? hm hs hbare
    | extended hn hs ho hbare =>
      obtain ⟨m, -, hm⟩ := List.mem_filterMap.mp hn
      exact not_bares_shownExtension hschemas hm hs ho hbare
  | _ => cases hbares

/-- A registry whose extension has an attribute and two sub-attributes that are never returned. -/
def keyRegistry : Registry :=
  Registry.standard.extend ⟨.user, Schema.make "urn:example:keys" "Keys" "Keys of a user"
    [ (Attribute.text "pin" "A secret").withReturned .never,
      Attribute.listed "devices" "The devices"
        [ Attribute.text "label" "The name of a device",
          (Attribute.text "token" "A secret of a device").withReturned .never ],
      (Attribute.complex "vault" "Where keys are kept"
        [(Attribute.text "code" "A secret of the vault").withReturned .never]).withReturned
          .always ], false⟩

def keyHolder : Json :=
  .obj [("PASSWORD", .str "secret"), ("userName", .str "bjensen"),
    ("urn:example:keys", .obj
      [("Pin", .str "1234"), ("vault", .obj [("code", .str "5678")]),
        ("devices", .arr [.obj [("label", .str "phone"), ("token", .str "t")],
          .obj [("TOKEN", .str "u")]])])]

/-- A list that asks for secrets by their names and for the whole extension. -/
def keyRequest : String :=
  "password, urn:example:keys, urn:example:keys:devices.token, userName"

theorem apply_withhold_keys :
    (∀ e ∈ keyRegistry.extensions, isUrn e.schema.id = true) ∧
      keyRegistry.Bares .user keyHolder ∧
      ∃ p, parse keyRegistry .user (some keyRequest) none = .ok p ∧
        p.apply keyRegistry .user keyHolder =
          p.apply keyRegistry .user (keyRegistry.withhold .user keyHolder) ∧
        ¬ keyRegistry.Bares .user (p.apply keyRegistry .user keyHolder) := by
  have hr : ∀ e ∈ keyRegistry.extensions, isUrn e.schema.id = true := by decide
  have hpassword : BaresMember Kind.user.attributes ("PASSWORD", .str "secret") := by
    obtain ⟨a, ha, hn⟩ := Option.any_eq_true _ _ |>.mp (show
      (findAttribute? Kind.user.attributes "PASSWORD").any Attribute.isNever = true by
        decide)
    exact ⟨a, ha, .inl hn⟩
  have hcore : keyRegistry.extension? .user "PASSWORD" = none :=
    Option.isNone_iff_eq_none.mp (by decide)
  obtain ⟨p, hp⟩ := exists_ok (show
    (parse keyRegistry .user (some keyRequest) none).toBool = true by decide)
  exact ⟨hr, .core List.mem_cons_self hcore hpassword, p, hp, apply_withhold hr .user p keyHolder⟩

end Projection

end Roster
