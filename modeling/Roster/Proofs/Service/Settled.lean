import Roster.Proofs.Service.Tidy

/-! The form of stored resources. In every store that changes lead to from the empty one, each
resource is tidy, and the members of a group are complete. -/

namespace Roster

variable {r : Registry} {kind : Kind} {v : Json}

/-- A tidy resource. If it is a group, its members are complete. -/
structure Registry.Settled (r : Registry) (kind : Kind) (v : Json) : Prop where
  tidy : r.Tidy kind v
  complete : kind = .group → ∀ items, v.get? "members" = some (.arr items) →
    ∀ e ∈ items, CompleteMember e

namespace Registry

/-- The members of a tidy group are checked. -/
theorem Tidy.members (h : r.Tidy .group v) {a : Attribute} (ha : IsMembers a) {items : List Json}
    (hi : v.get? "members" = some (.arr items)) : ∀ e ∈ items, checkSingle a e = .ok e := by
  obtain ⟨root, rfl⟩ := Json.isObject_iff.mp h.isObject
  have hget : Members.get? root a.name = some (.arr items) := ha.name ▸ hi
  obtain ⟨_, heq, hitems⟩ :=
    (checkValue_list_self_iff ha.listed).mp (h.canonical.value ha.defined hget)
  cases heq
  exact hitems

/-- A list of checked members may be put into a group. -/
theorem Tidy.putMembers (h : r.Tidy .group v) {a : Attribute} (ha : IsMembers a)
    {items : List Json} (hi : ∀ e ∈ items, checkSingle a e = .ok e) :
    r.Tidy .group (v.put "members" (.arr items)) := by
  refine h.put ?_ (by decide) (by decide)
  rw [← ha.name]
  exact .defined ha.defined ((checkValue_list_self_iff ha.listed).mpr ⟨items, rfl, hi⟩)

/-- No required attribute of a group is the list of its members. -/
theorem members_not_required : ∀ a ∈ Kind.group.coreSchema.attributes, a.required = true →
    sameName a.name "members" = false := by
  decide

theorem Tidy.withoutMembers (h : r.Tidy .group v) : r.Tidy .group (v.without "members") := by
  obtain ⟨root, rfl⟩ := Json.isObject_iff.mp h.isObject
  have hurn : isUrn "members" = false := by decide
  refine ⟨rfl, h.canonical.erase "members", h.declares.congr ?_ fun s hs => ?_, fun a ha hr => ?_⟩
  · exact Members.get?_erase_of_ne root (by decide)
  · refine Members.get?_erase_of_ne root ?_
    intro heq
    rw [← heq, registered_isUrn hs] at hurn
    cases hurn
  · have hfound := h.required a ha hr
    change (Members.find? (Members.erase root "members") a.name).isSome = true
    rwa [Members.find?_erase_of_not_same (members_not_required a ha hr)]

namespace Settled

/-- The server may put what it assigns. -/
theorem assign (h : r.Settled kind v) {key : String} (hk : key ∈ ["id", "meta"]) (x : Json) :
    r.Settled kind (v.put key x) := by
  refine ⟨h.tidy.assign hk x, fun hkind items hi => h.complete hkind items ?_⟩
  rwa [Json.get?_put_of_ne] at hi
  rcases List.mem_pair.mp hk with rfl | rfl <;> decide

/-- Taking a member out of a group leaves the others as they are. -/
theorem withoutMember (h : r.Settled .group v) {id : String} {left : Json}
    (hl : Service.withoutMember? id v = some left) : r.Settled .group left := by
  obtain ⟨a, ha⟩ := exists_isMembers
  obtain ⟨items, hitems, -, rfl | rfl⟩ := Service.withoutMember?_some hl
  · refine ⟨h.tidy.withoutMembers, fun _ items' hi => ?_⟩
    simp [Json.get?_without_self] at hi
  · have hkept : ∀ e ∈ items.filter (fun m => Service.memberId? m != some id), e ∈ items :=
      fun e he => List.mem_of_mem_filter he
    refine ⟨h.tidy.putMembers ha fun e he => h.tidy.members ha hitems e (hkept e he),
      fun _ items' hi e he => ?_⟩
    rw [Json.get?_put_self h.tidy.isObject] at hi
    cases hi
    exact h.complete rfl items hitems e (hkept e he)

end Settled

end Registry

namespace Service

variable {s : Service} {st st' : Store} {id baseUrl : String} {now : Instant}

/-- Every stored resource is settled. -/
abbrev AllSettled (s : Service) (st : Store) : Prop :=
  st.All fun kind _ v => s.registry.Settled kind v

/-! ### What is written -/

/-- Resolving settles a tidy resource. -/
theorem resolveMembers_settled {w : Json} (h : r.Tidy kind v)
    (hst : ∀ kind id v, st.get? kind id = some v → r.Tidy kind v)
    (hres : (resolveMembers kind v baseUrl).run st = (.ok w, st')) : r.Settled kind w := by
  obtain ⟨a, ha⟩ := exists_isMembers
  unfold resolveMembers at hres
  split at hres
  · rename_i entries hentries
    obtain ⟨items, s₁, hitems, hres⟩ := Task.bind_run_ok.mp hres
    obtain ⟨rfl, -⟩ : v.put "members" (.arr items) = w ∧ s₁ = st' := by simpa using hres
    have hdone := resolveEntries_complete ha hst (by simp) (h.members ha hentries) hitems
    refine ⟨h.putMembers ha fun e he => (hdone e he).1, fun _ items' hi e he => ?_⟩
    rw [Json.get?_put_self h.isObject] at hi
    cases hi
    exact (hdone e he).2
  · rename_i hno
    obtain ⟨rfl, -⟩ : v = w ∧ st = st' := by simpa using hres
    refine ⟨h, fun hkind items hi => ?_⟩
    subst hkind
    exact absurd hi (hno items rfl)

/-! ### Runs -/

theorem settled_kept (hw : s.registry.WellNamed) (h1 : ∀ kind, s.registry.Single kind)
    (htidy : ∀ kind id v, st.get? kind id = some v → s.registry.Tidy kind v) :
    s.Kept st s.registry.Settled where
  unassigned _ := ⟨fun x hv => hv.assign (by simp) x, fun x hv => hv.assign (by simp) x⟩
  built hb hres := resolveMembers_settled (Registry.build_tidy hw (h1 _) hb) htidy hres
  patched he _ ha hres :=
    resolveMembers_settled ((htidy _ _ _ he).applyAll hw (h1 _) ha) htidy hres
  left hg hl := hg.withoutMember hl

/-- Every change leaves settled resources. -/
theorem perform_settled (hw : s.registry.WellNamed) (h1 : ∀ kind, s.registry.Single kind)
    (h : s.AllSettled st) (a : Action) : s.AllSettled (s.perform st a) :=
  perform_all (settled_kept hw h1 fun kind id v hv => (h.each kind id v hv).tidy) h a

theorem performAll_settled (hw : s.registry.WellNamed) (h1 : ∀ kind, s.registry.Single kind)
    (h : s.AllSettled st) (actions : List Action) : s.AllSettled (s.performAll st actions) :=
  performAll_rule (P := s.AllSettled) (fun _ a h => perform_settled hw h1 h a) h actions

end Service

end Roster
