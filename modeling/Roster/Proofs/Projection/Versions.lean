import Roster.Http.Message
import Roster.Proofs.Members.Kept
import Roster.Proofs.Projection.Withheld

/-! Resources with their versions blanked out. A projection and the form of a resource in either
version of the protocol copy the version of a resource at most, so that it makes no difference
whether it is blanked out before or after. -/

namespace Roster

namespace Json

/-- The object with its members changed by their names; any other value as it is. -/
def mapMembers (f : String → Json → Json) : Json → Json
  | .obj members => .obj (members.map fun m => (m.1, f m.1 m.2))
  | v => v

/-- Metadata with a blank for the version. -/
def blankMeta : Json → Json :=
  mapMembers fun key v => if sameName "version" key then .null else v

/-- A resource with a blank for its version. -/
def blankVersion : Json → Json :=
  mapMembers fun key v => if sameName "meta" key then v.blankMeta else v

/-- A resource, with a blank for its version if the version does not count. -/
def apart (versions : Bool) (v : Json) : Json :=
  if versions then v.blankVersion else v

/-- A list of resources, with blanks for their versions if these do not count. -/
def apartItems (versions : Bool) : Json → Json
  | .arr items => .arr (items.map (apart versions))
  | v => v

/-- A page of resources, with blanks for their versions if these do not count. -/
def apartPage (versions : Bool) : Json → Json :=
  mapMembers fun key v => if key = "Resources" then v.apartItems versions else v

theorem ofMembers_mapMembers (f : String → Json → Json) (pairs : List (String × Json)) :
    (ofMembers pairs).mapMembers f = ofMembers (pairs.map fun m => (m.1, f m.1 m.2)) :=
  congrArg Json.obj (Members.ofList_map f pairs).symm

theorem items?_apart (versions : Bool) (v : Json) : (v.apart versions).items? = v.items? := by
  cases versions with
  | false => rfl
  | true => cases v <;> rfl

end Json

/-- A response, with blanks for the versions that it lists if these do not count. -/
def Response.apart (versions : Bool) (response : Response) : Response :=
  { response with body := response.body.map (Json.apartPage versions) }

namespace Projection

variable {r : Registry} {kind : Kind} {f : String → Json → Json}

/-! ### Projections -/

theorem keepMembers_map (a : Attribute) (wanted : String → Bool) (ms : Members Json) :
    keepMembers a wanted (ms.map fun m => (m.1, f m.1 m.2)) =
      (keepMembers a wanted ms).map fun m => (m.1, f m.1 m.2) := by
  unfold keepMembers
  rw [List.filter_map]
  rfl

theorem keepSubs?_mapMembers (a : Attribute) (wanted : String → Bool) (v : Json) :
    keepSubs? a wanted (v.mapMembers f) = (keepSubs? a wanted v).map (Json.mapMembers f) := by
  cases v with
  | obj members =>
    simp only [Json.mapMembers, keepSubs?, keepMembers_map, List.isEmpty_map]
    split_ifs <;> rfl
  | arr items =>
    simp only [Json.mapMembers, keepSubs?]
    split_ifs <;> rfl
  | _ => rfl

theorem withoutNever_mapMembers (a : Attribute) (v : Json) :
    withoutNever a (v.mapMembers f) = (withoutNever a v).mapMembers f := by
  unfold withoutNever
  rw [keepSubs?_mapMembers]
  split_ifs
  · rfl
  · cases keepSubs? a (fun _ => true) v <;> rfl

theorem leaveOut_mapMembers (p : Projection) (extension : Option String) (a : Attribute)
    (v : Json) :
    p.leaveOut extension a (v.mapMembers f) =
      (p.leaveOut extension a v).map (Json.mapMembers f) := by
  unfold leaveOut
  split
  · rw [withoutNever_mapMembers, Option.map_some]
  · split
    · rfl
    · exact keepSubs?_mapMembers a _ v

/-- What is chosen of the members of a value is chosen by their names alone. -/
theorem member?_mapMembers (p : Projection) (extension : Option String)
    (attributes : List Attribute) (key : String) (v : Json) :
    p.member? extension attributes key (v.mapMembers f) =
      (p.member? extension attributes key v).map (Json.mapMembers f) := by
  unfold member?
  split
  · split_ifs <;> rfl
  · split
    · rfl
    · rw [withoutNever_mapMembers, Option.map_some]
    · split
      · rfl
      · split
        · exact keepSubs?_mapMembers _ _ v
        · exact leaveOut_mapMembers p extension _ v
    · rfl
    · exact leaveOut_mapMembers p extension _ v

theorem isUrn_of_meta {name : String} (h : sameName "meta" name = true) : isUrn name = false := by
  rw [← isUrn_congr h]
  decide

theorem shown?_blankVersion (hr : ∀ e ∈ r.extensions, isUrn e.schema.id = true) (p : Projection)
    (m : String × Json) :
    p.shown? r kind (m.1, if sameName "meta" m.1 then m.2.blankMeta else m.2) =
      (p.shown? r kind m).map fun n =>
        (n.1, if sameName "meta" n.1 then n.2.blankMeta else n.2) := by
  obtain ⟨key, v⟩ := m
  cases hmeta : sameName "meta" key with
  | false =>
    cases hs : p.shown? r kind (key, v) with
    | none => simp [hs]
    | some n =>
      have hkey : n.1 = key := shown?_key hs
      subst hkey
      simp [hs, hmeta]
  | true =>
    have hne : key ≠ "schemas" := by
      rintro rfl
      revert hmeta
      decide
    have hcore := extension?_eq_none_of_not_urn hr kind (isUrn_of_meta hmeta)
    have hshown (w : Json) : p.shown? r kind (key, w) =
        (p.member? none kind.attributes key w).map (key, ·) := p.shown?_attribute hne hcore
    simp only [if_true, hshown, Json.blankMeta, member?_mapMembers, Option.map_map]
    refine congrArg (Option.map · _) (funext fun w => ?_)
    simp [hmeta]

theorem apply_apart (hr : ∀ e ∈ r.extensions, isUrn e.schema.id = true) (p : Projection)
    (versions : Bool) (v : Json) :
    p.apply r kind (v.apart versions) = (p.apply r kind v).apart versions := by
  cases versions with
  | false => rfl
  | true =>
    cases v with
    | obj root =>
      refine congrArg Json.obj ?_
      change (root.map _).filterMap (p.shown? r kind) = (root.filterMap (p.shown? r kind)).map _
      rw [List.filterMap_map, List.map_filterMap]
      exact List.filterMap_congr fun m _ => shown?_blankVersion hr p m
    | _ => rfl

end Projection

namespace ProtocolVersion

/-! ### The form of a version -/

theorem not_meta_of_urn {name : String} (h : isUrn name = true) : sameName "meta" name = false := by
  rw [Bool.eq_false_iff]
  intro hmeta
  rw [Projection.isUrn_of_meta hmeta] at h
  cases h

/-- Only URNs have another form in version 1. -/
theorem meta_toLegacy (key : String) :
    sameName "meta" ((toLegacy? key).getD key) = sameName "meta" key := by
  cases ht : toLegacy? key with
  | none => rfl
  | some urn =>
    obtain ⟨p, hp, rfl⟩ := Option.map_eq_some_iff.mp ht
    have hurns : ∀ p ∈ urns, isUrn p.1 = true ∧ isUrn p.2 = true := by decide
    obtain ⟨hcurrent, hlegacy⟩ := hurns p (List.mem_of_find?_eq_some hp)
    have hsame : sameName p.1 key = true :=
      List.find?_some (p := fun p : String × String => sameName p.1 key) hp
    rw [isUrn_congr hsame] at hcurrent
    rw [Option.getD_some, not_meta_of_urn hlegacy, not_meta_of_urn hcurrent]

theorem legacyMember_blankVersion (key : String) (v : Json) :
    legacyMember key (if sameName "meta" key then v.blankMeta else v) =
      ((legacyMember key v).1, if sameName "meta" (legacyMember key v).1 then
        (legacyMember key v).2.blankMeta else (legacyMember key v).2) := by
  unfold legacyMember
  by_cases hschemas : key = "schemas"
  · subst hschemas
    have hother : sameName "meta" "schemas" = false := by decide
    simp [hother]
  · by_cases hmeta : key = "meta"
    · subst hmeta
      cases v with
      | obj members =>
        simp [Json.blankMeta, Json.mapMembers, Members.erase, List.filter_map, Function.comp_def]
      | _ => rfl
    · simp only [if_neg hschemas, if_neg hmeta, meta_toLegacy]

theorem encode_apart (version : ProtocolVersion) (versions : Bool) (v : Json) :
    version.encode (v.apart versions) = (version.encode v).apart versions := by
  cases versions with
  | false => rfl
  | true =>
    change version.encode v.blankVersion = (version.encode v).blankVersion
    cases version with
    | v2 => cases v <;> rfl
    | v1 =>
      cases v with
      | obj members =>
        rw [encode, Json.blankVersion, Json.ofMembers_mapMembers]
        simp only [Json.mapMembers, encode, List.map_map]
        refine congrArg Json.ofMembers (List.map_congr_left fun m _ => ?_)
        exact legacyMember_blankVersion m.1 m.2
      | _ => rfl

theorem encodeList_apart (version : ProtocolVersion) (versions : Bool) (items : List Json)
    (total start : Nat) : (version.encodeList items total start).apartPage versions =
      version.encodeList (items.map (Json.apart versions)) total start := by
  unfold encodeList Json.apartPage
  rw [Json.ofMembers_mapMembers]
  simp [Json.apartItems]

end ProtocolVersion

end Roster
