import Roster.Proofs.Service.Build
import Roster.Proofs.Service.Task
import Roster.Proofs.Store
import Roster.Service.Basic

/-! Members of groups: what it is for them to name stored resources, that resolving them brings this
about, and that it survives when one of them is taken out. -/

namespace Roster

/-- A resource of either kind is stored under an identifier. -/
def Store.Holds (s : Store) (id : String) : Prop :=
  ∃ kind, (s.get? kind id).isSome = true

/-- Each element names something by its `value`, and no two name the same. -/
structure NamesEach (holds : String → Prop) (items : List Json) : Prop where
  named : ∀ e ∈ items, ∃ id, e.get? "value" = some (.str id) ∧ holds id
  distinct : items.Pairwise fun e f => e.get? "value" ≠ f.get? "value"

/-- The members of a group are a list whose elements each name something. -/
structure Referential (holds : String → Prop) (group : Json) : Prop where
  listed : MembersListed group.root
  resolved : ∀ items, group.get? "members" = some (.arr items) → NamesEach holds items

/-- No member of a group has an identifier. -/
def FreeOf (id : String) (group : Json) : Prop :=
  ∀ items, group.get? "members" = some (.arr items) → ∀ e ∈ items, Service.memberId? e ≠ some id

theorem NamesEach.sublist {holds : String → Prop} {items items' : List Json}
    (h : NamesEach holds items) (hs : items'.Sublist items) : NamesEach holds items' :=
  ⟨fun e he => h.named e (hs.subset he), h.distinct.sublist hs⟩

theorem NamesEach.mono {holds other : String → Prop} {items : List Json} (h : NamesEach holds items)
    (ho : ∀ e ∈ items, ∀ id, e.get? "value" = some (.str id) → holds id → other id) :
    NamesEach other items where
  named e he := by
    obtain ⟨id, hid, hh⟩ := h.named e he
    exact ⟨id, hid, ho e he id hid hh⟩
  distinct := h.distinct

namespace Service

variable {s : Store} {id baseUrl : String} {kind : Kind} {v resource entry : Json}

theorem memberId?_of_get? (h : entry.get? "value" = some (.str id)) :
    memberId? entry = some id := by
  simp [memberId?, Json.member?_of_get? h, Json.string?]

/-! ### Resolving members -/

theorem findMember_reads (id : String) : (findMember id).Reads := by
  refine (Task.Reads.get _ _).bind fun user => ?_
  cases user with
  | some user => exact .pure _
  | none =>
    refine (Task.Reads.get _ _).bind fun group => ?_
    cases group with
    | some group => exact .pure _
    | none => exact .throw _

/-- What is found for a member is stored under its identifier. -/
theorem findMember_stored {found : Kind × Json} {s' : Store}
    (h : (findMember id).run s = (.ok found, s')) : s.get? found.1 id = some found.2 := by
  unfold findMember at h
  obtain ⟨user, s₁, hu, h⟩ := Task.bind_run_ok.mp h
  obtain ⟨rfl, rfl⟩ : s.get? .user id = user ∧ s = s₁ := by simpa using hu
  cases huser : s.get? .user id with
  | some user =>
    rw [huser] at h
    obtain ⟨rfl, -⟩ : (Kind.user, user) = found ∧ s = s' := by simpa using h
    exact huser
  | none =>
    rw [huser] at h
    obtain ⟨group, s₁, hg, h⟩ := Task.bind_run_ok.mp h
    obtain ⟨rfl, rfl⟩ : s.get? .group id = group ∧ s = s₁ := by simpa using hg
    cases hgroup : s.get? .group id with
    | some group =>
      rw [hgroup] at h
      obtain ⟨rfl, -⟩ : (Kind.group, group) = found ∧ s = s' := by simpa using h
      exact hgroup
    | none => simp [hgroup] at h

theorem findMember_holds {found : Kind × Json} {s' : Store}
    (h : (findMember id).run s = (.ok found, s')) : s.Holds id :=
  ⟨found.1, by simp [findMember_stored h]⟩

theorem get?_putNew_of_some {members : Members Json} {key other : String} {x y : Json}
    (h : members.get? key = some x) : (putNew members other y).get? key = some x := by
  unfold putNew
  split_ifs with hs
  · exact h
  · rw [Members.get?_insert_of_ne _ _ ?_, h]
    rintro rfl
    simp [h] at hs

theorem completeMember_value (baseUrl : String) (entry : Json) (id : String) (kind : Kind)
    (resource : Json) :
    (completeMember baseUrl entry id kind resource).get? "value" = some (.str id) := by
  unfold completeMember
  dsimp only
  split
  · exact get?_putNew_of_some (get?_putNew_of_some (get?_putNew_of_some
      (Members.get?_insert_self _ _ _)))
  · exact get?_putNew_of_some (get?_putNew_of_some (Members.get?_insert_self _ _ _))

theorem resolveEntries_reads (baseUrl : String) (done entries : List Json) :
    (resolveEntries baseUrl done entries).Reads := by
  induction entries generalizing done with
  | nil => exact .pure _
  | cons entry rest ih =>
    unfold resolveEntries
    split
    · exact .throw _
    · split_ifs
      · exact ih _
      · exact (findMember_reads _).bind fun _ => ih _

/-- Elements that are resolved behind others name what is stored, each of them something else. -/
theorem resolveEntries_names {done entries items : List Json} {s' : Store}
    (hd : NamesEach s.Holds done)
    (h : (resolveEntries baseUrl done entries).run s = (.ok items, s')) :
    NamesEach s.Holds items := by
  -- what is done grows along the entries, so that it is general in the induction
  induction entries generalizing done with
  | nil =>
    obtain ⟨rfl, -⟩ : done = items ∧ s = s' := by simpa [resolveEntries] using h
    exact hd
  | cons entry rest ih =>
    unfold resolveEntries at h
    split at h
    · simp at h
    · rename_i id hid
      split_ifs at h with hany
      · -- a repeated entry is dropped
        exact ih hd h
      · obtain ⟨⟨kind, resource⟩, s₁, hfound, hrest⟩ := Task.bind_run_ok.mp h
        obtain rfl := (findMember_reads id).run_ok hfound
        have hvalue := completeMember_value baseUrl entry id kind resource
        refine ih ⟨fun e he => ?_, ?_⟩ hrest
        · rcases List.mem_append.mp he with he | he
          · exact hd.named e he
          · obtain rfl := List.mem_singleton.mp he
            exact ⟨id, hvalue, findMember_holds hfound⟩
        · refine List.pairwise_append.mpr
            ⟨hd.distinct, List.pairwise_singleton _ _, fun e he f hf heq => ?_⟩
          obtain rfl := List.mem_singleton.mp hf
          rw [hvalue] at heq
          exact hany (List.any_eq_true.mpr ⟨e, he, by simp [memberId?_of_get? heq]⟩)

theorem resolveMembers_reads (kind : Kind) (v : Json) (baseUrl : String) :
    (resolveMembers kind v baseUrl).Reads := by
  unfold resolveMembers
  split
  · exact (resolveEntries_reads _ _ _).bind fun _ => .pure _
  · exact .pure _

/-- Resolving changes nothing but the members of a group. -/
theorem resolveMembers_eq {w : Json} {s' : Store}
    (h : (resolveMembers kind v baseUrl).run s = (.ok w, s')) :
    w = v ∨ ∃ items, w = v.put "members" (.arr items) := by
  unfold resolveMembers at h
  split at h
  · obtain ⟨items, s₁, -, h⟩ := Task.bind_run_ok.mp h
    obtain ⟨rfl, -⟩ : _ = w ∧ s₁ = s' := by simpa using h
    exact .inr ⟨items, rfl⟩
  · obtain ⟨rfl, -⟩ : v = w ∧ s = s' := by simpa using h
    exact .inl rfl

theorem resolveMembers_referential {w : Json} {s' : Store} (hl : MembersListed v.root)
    (h : (resolveMembers .group v baseUrl).run s = (.ok w, s')) : Referential s.Holds w := by
  unfold resolveMembers at h
  split at h
  · rename_i entries hentries
    have ho := Json.isObject_of_get? hentries
    obtain ⟨items, s₁, hitems, h⟩ := Task.bind_run_ok.mp h
    obtain ⟨rfl, -⟩ : v.put "members" (.arr items) = w ∧ s₁ = s' := by simpa using h
    refine ⟨hl.put ho (fun _ => rfl) fun _ => ⟨items, rfl⟩, fun items' hi => ?_⟩
    rw [Json.get?_put_self ho] at hi
    cases hi
    exact resolveEntries_names ⟨by simp, List.Pairwise.nil⟩ hitems
  · rename_i hno
    obtain ⟨rfl, -⟩ : v = w ∧ s = s' := by simpa using h
    exact ⟨hl, fun items hi => absurd hi (hno items rfl)⟩

/-! ### Taking a member out -/

theorem withoutMember?_some {group updated : Json} (h : withoutMember? id group = some updated) :
    ∃ items, group.get? "members" = some (.arr items) ∧
      let kept := items.filter fun m => memberId? m != some id
      kept.length ≠ items.length ∧
        (updated = group.without "members" ∨ updated = group.put "members" (.arr kept)) := by
  unfold withoutMember? at h
  split at h
  · rename_i items hitems
    refine ⟨items, hitems, ?_⟩
    dsimp only at h
    split_ifs at h with hlength
    · exact ⟨hlength, .inl (Option.some.inj h).symm⟩
    · exact ⟨hlength, .inr (Option.some.inj h).symm⟩
  · simp at h

/-- A group that is left as it is has no such member. -/
theorem freeOf_of_withoutMember? {group : Json} (h : withoutMember? id group = none) :
    FreeOf id group := by
  intro items hitems e he heq
  simp only [withoutMember?, hitems] at h
  split_ifs at h with hlength
  have hall := List.length_filter_eq_length_iff.mp hlength e he
  simp [heq] at hall

theorem withoutMember?_freeOf {group updated : Json} (h : withoutMember? id group = some updated) :
    FreeOf id updated := by
  obtain ⟨items, hitems, -, rfl | rfl⟩ := withoutMember?_some h
  · intro items' hi
    simp [Json.get?_without_self] at hi
  · intro items' hi e he heq
    rw [Json.get?_put_self (Json.isObject_of_get? hitems)] at hi
    cases hi
    simp [heq] at he

theorem withoutMember?_get?_of_ne {group updated : Json} {key : String} (hk : key ≠ "members")
    (h : withoutMember? id group = some updated) : updated.get? key = group.get? key := by
  obtain ⟨items, -, -, rfl | rfl⟩ := withoutMember?_some h
  · exact Json.get?_without_of_ne hk
  · exact Json.get?_put_of_ne hk

/-- What is left is of another content, metadata aside. -/
theorem withoutMember?_content_ne {group updated : Json}
    (h : withoutMember? id group = some updated) :
    updated.without "meta" ≠ group.without "meta" := by
  intro heq
  have hmembers := congrArg (·.get? "members") heq
  simp only [Json.get?_without_of_ne (show "members" ≠ "meta" by decide)] at hmembers
  obtain ⟨items, hitems, hlength, rfl | rfl⟩ := withoutMember?_some h
  · rw [Json.get?_without_self, hitems] at hmembers
    cases hmembers
  · rw [Json.get?_put_self (Json.isObject_of_get? hitems), hitems] at hmembers
    exact hlength (congrArg List.length (Json.arr.inj (Option.some.inj hmembers)))

theorem withoutMember?_referential {holds : String → Prop} {group updated : Json}
    (hr : Referential holds group) (h : withoutMember? id group = some updated) :
    Referential holds updated := by
  obtain ⟨items, hitems, -, rfl | rfl⟩ := withoutMember?_some h
  · have ho := Json.isObject_of_get? hitems
    refine ⟨?_, fun items' hi => ?_⟩
    · rw [Json.root_without ho]
      exact membersListed_iff.mpr ((membersListed_iff.mp hr.listed).of_erase _)
    · simp [Json.get?_without_self] at hi
  · have ho := Json.isObject_of_get? hitems
    refine ⟨hr.listed.put ho (fun _ => rfl) fun _ => ⟨_, rfl⟩, fun items' hi => ?_⟩
    rw [Json.get?_put_self ho] at hi
    cases hi
    exact (hr.resolved items hitems).sublist List.filter_sublist

end Service

end Roster
