import Roster.Proofs.Store.Order
import Roster.Store.Ledger

/-! A store and its plain account. Whatever calls are made of an empty store, it replies as a list
does to which resources are appended, in which they are replaced in place and from which they are
removed. -/

namespace Roster

/-- A call, and the reply to it. -/
abbrev Replied := (c : Call) × c.Reply

/-- Whether a reply says that a change is refused. -/
def Call.isRefusal : (c : Call) → c.Reply → Bool
  | .insert _ _, .error _ => true
  | .update _ _ _, .error _ => true
  | .delete _ _, .error _ => true
  | _, _ => false

namespace Ledger

/-- The account after a call. A change that is refused leaves it as it is. -/
def after (l : Ledger) : Call → Ledger
  | .insert kind resource => (l.insert kind resource).toOption.getD l
  | .update kind id resource => (l.update kind id resource).toOption.getD l
  | .delete kind id => (l.delete kind id).toOption.getD l
  | _ => l

/-- The replies that an account allows to a call. A search may find any of the candidates, and finds
nothing only if there are none. -/
def Allows (l : Ledger) : (c : Call) → c.Reply → Prop
  | .get kind id, reply => reply = l.get? kind id
  | .list kind filter, reply => reply = l.list kind filter
  | .count kind, reply => reply = (l.resources kind).length
  | .find probe, none => l.candidates probe = []
  | .find probe, some found => found ∈ l.candidates probe
  | .insert kind resource, reply => reply = (l.insert kind resource).map fun _ => resource
  | .update kind id resource, reply => reply = (l.update kind id resource).map fun _ => resource
  | .delete kind id, reply => reply = (l.delete kind id).map fun _ => ()

/-- Calls that an account allows to be replied to so, one after another. -/
inductive AllowsAll : Ledger → List Replied → Prop
  | nil (l : Ledger) : AllowsAll l []
  | cons {l : Ledger} {c : Call} {reply : c.Reply} {rest : List Replied} :
      l.Allows c reply → AllowsAll (l.after c) rest → AllowsAll l (⟨c, reply⟩ :: rest)

/-- The lines of a kind, in their order. -/
def linesOf (l : Ledger) (kind : Kind) : List Line :=
  l.filter (·.kind == kind)

/-- The line at a place is sought among the lines of its kind. -/
theorem find?_isAt (l : Ledger) (kind : Kind) (id : String) :
    l.find? (isAt kind id) = (l.linesOf kind).find? (·.id == id) := by
  rw [linesOf, List.find?_filter]
  refine congrArg (List.find? · l) (funext fun line => ?_)
  rw [isAt, Bool.decide_and, Bool.decide_eq_true, Bool.decide_eq_true]

theorem any_isAt (l : Ledger) (kind : Kind) (id : String) :
    l.any (isAt kind id) = (l.get? kind id).isSome := by
  rw [get?, Option.isSome_map, List.isSome_find?]

end Ledger

namespace Store

variable {s s' : Store} {l l' : Ledger} {kind : Kind} {id : String} {v : Json}

/-- The line of an account for an entry. -/
def line (kind : Kind) (m : String × Entry) : Line :=
  ⟨kind, m.1, m.2.resource⟩

/-- A list is an account of a store if it has the entries of each kind in their order. -/
structure Accounts (s : Store) (l : Ledger) : Prop where
  numbered : s.Numbered
  lines : ∀ kind, l.linesOf kind = (s.ordered kind).map (line kind)

theorem accounts_empty : Accounts empty [] where
  numbered := numbered_empty
  lines kind := by cases kind <;> simp [Ledger.linesOf, ordered, entries, empty]

/-! ### Replies -/

/-- An entry is found among the entries in their order as it is found by its identifier. -/
theorem find?_ordered (h : s.Numbered) (kind : Kind) (id : String) :
    ((s.ordered kind).find? (·.1 == id)).map (·.2) = (s.entries kind).get? id := by
  refine Option.ext fun e => ?_
  rw [Members.get?_eq_some_iff (h.sorted kind), ← (s.ordered_perm kind).mem_iff]
  constructor
  · intro hfound
    obtain ⟨m, hm, rfl⟩ := Option.map_eq_some_iff.mp hfound
    have hid : m.1 = id := by simpa using List.find?_some hm
    exact hid ▸ List.mem_of_find?_eq_some hm
  · intro hmem
    have hsome : ((s.ordered kind).find? (·.1 == id)).isSome = true :=
      List.find?_isSome.mpr ⟨(id, e), hmem, beq_self_eq_true id⟩
    obtain ⟨m, hm⟩ := Option.isSome_iff_exists.mp hsome
    have hid : m.1 = id := by simpa using List.find?_some hm
    -- no other entry has the identifier
    have hheld : (s.entries kind).get? id = some m.2 := Members.get?_of_mem (h.sorted kind)
      (hid ▸ (s.ordered_perm kind).mem_iff.mp (List.mem_of_find?_eq_some hm))
    have hsame : (s.entries kind).get? id = some e :=
      Members.get?_of_mem (h.sorted kind) ((s.ordered_perm kind).mem_iff.mp hmem)
    rw [hm, Option.map_some, ← hheld, hsame]

/-! The account is asked through its lines of one kind, and these are the entries in order. -/

theorem Accounts.get? (h : s.Accounts l) (kind : Kind) (id : String) :
    l.get? kind id = s.get? kind id := by
  rw [Ledger.get?, Ledger.find?_isAt, h.lines, List.find?_map, Store.get?,
    ← find?_ordered h.numbered, Option.map_map, Option.map_map]
  rfl

theorem Accounts.resources (h : s.Accounts l) (kind : Kind) :
    l.resources kind = s.resources kind := by
  have hlines : l.filter (·.kind == kind) = (s.ordered kind).map (line kind) := h.lines kind
  rw [Ledger.resources, hlines, List.map_map, resources_eq]
  rfl

theorem Accounts.count (h : s.Accounts l) (kind : Kind) :
    (l.resources kind).length = s.count kind := by
  rw [h.resources, resources_eq, List.length_map, (s.ordered_perm kind).length_eq]
  rfl

/-- What a search may find are the entries that it is for. -/
theorem Accounts.mem_candidates (h : s.Accounts l) {p : Probe} :
    v ∈ l.candidates p ↔
      ∃ m ∈ s.entries p.kind, p.finds m.1 m.2.resource = true ∧ m.2.resource = v := by
  have hlines : l.candidates p =
      (((s.ordered p.kind).map (line p.kind)).filter fun line =>
        p.finds line.id line.resource).map (·.resource) := by
    rw [← h.lines, Ledger.candidates, Ledger.linesOf, List.filter_filter]
    simp only [Bool.and_comm]
  rw [hlines]
  constructor
  · intro hv
    obtain ⟨found, hfound, rfl⟩ := List.mem_map.mp hv
    obtain ⟨hmem, hfinds⟩ := List.mem_filter.mp hfound
    obtain ⟨m, hm, rfl⟩ := List.mem_map.mp hmem
    exact ⟨m, (s.ordered_perm p.kind).mem_iff.mp hm, hfinds, rfl⟩
  · rintro ⟨m, hm, hfinds, rfl⟩
    refine List.mem_map.mpr ⟨line p.kind m, List.mem_filter.mpr ⟨?_, hfinds⟩, rfl⟩
    exact List.mem_map_of_mem ((s.ordered_perm p.kind).mem_iff.mpr hm)

/-- A search is replied to with one of the candidates, if there are any. -/
theorem Accounts.find (h : s.Accounts l) (p : Probe) : l.Allows (.find p) (s.find? p) := by
  cases hfound : s.find? p with
  | none =>
    refine List.eq_nil_iff_forall_not_mem.mpr fun v hv => ?_
    obtain ⟨m, hm, hfinds, -⟩ := h.mem_candidates.mp hv
    have hnone := List.findSome?_eq_none_iff.mp hfound m hm
    rw [if_pos hfinds] at hnone
    cases hnone
  | some v =>
    obtain ⟨m, hm, hsome⟩ := List.exists_of_findSome?_eq_some hfound
    split_ifs at hsome with hfinds
    exact h.mem_candidates.mpr ⟨m, hm, hfinds, Option.some.inj hsome⟩

/-! ### Changes -/

/-- A change is refused by a store and by its account for the same reason, and else leaves a store
and its account again. -/
def Agree (s : Store) (l : Ledger) (changed : Except StoreError Store)
    (account : Except StoreError Ledger) : Prop :=
  match changed, account with
  | .ok s', .ok l' => s'.Accounts l'
  | .error e, .error e' => e = e' ∧ s.Accounts l
  | _, _ => False

theorem Agree.reply {α : Type} {changed : Except StoreError Store}
    {account : Except StoreError Ledger} (h : s.Agree l changed account) (value : α) :
    (s.reply changed value).1 = (account.map fun _ => value) ∧
      (s.reply changed value).2.Accounts (account.toOption.getD l) := by
  cases changed with
  | ok s' =>
    cases account with
    | ok l' => exact ⟨rfl, h⟩
    | error e => exact absurd h id
  | error e =>
    cases account with
    | ok l' => exact absurd h id
    | error e' =>
      obtain ⟨rfl, hleft⟩ := h
      exact ⟨rfl, hleft⟩

/-- Lines of one kind are changed; those of the other stay. -/
theorem Accounts.change (h : s.Accounts l) (hnumbered : s'.Numbered)
    (hlines : l'.linesOf kind = (s'.ordered kind).map (line kind))
    (hordered : ∀ other, other ≠ kind → s'.ordered other = s.ordered other)
    (hrest : ∀ other, other ≠ kind → l'.linesOf other = l.linesOf other) : s'.Accounts l' := by
  refine ⟨hnumbered, fun other => ?_⟩
  by_cases ho : other = kind
  · subst ho
    exact hlines
  · rw [hrest other ho, hordered other ho, h.lines]

theorem Accounts.insert (h : s.Accounts l) (kind : Kind) (v : Json) :
    s.Agree l (s.insert kind v) (l.insert kind v) := by
  cases hid : v.identifier? with
  | none => simpa [Agree, Store.insert, Ledger.insert, hid] using h
  | some id =>
    cases htaken : (s.get? kind id).isSome with
    | true =>
      simpa [Agree, Store.insert, Ledger.insert, hid, Ledger.any_isAt, h.get?, htaken] using h
    | false =>
      obtain ⟨s', hs⟩ : ∃ s', s.insert kind v = .ok s' := by
        simp [Store.insert, hid, htaken]
      have hl : l.insert kind v = .ok (l ++ [⟨kind, id, v⟩]) := by
        simp [Ledger.insert, hid, Ledger.any_isAt, h.get?, htaken]
      obtain ⟨hnumbered, hordered, hrest⟩ := ordered_insert h.numbered hs hid
      rw [hs, hl]
      refine h.change hnumbered ?_ hrest fun other ho => ?_
      · have hlines := h.lines kind
        simp only [Ledger.linesOf] at hlines ⊢
        rw [hordered, List.map_append, List.filter_append, hlines]
        simp [line]
      · simp [Ledger.linesOf, Ne.symm ho]

theorem Accounts.update (h : s.Accounts l) (kind : Kind) (id : String) (v : Json) :
    s.Agree l (s.update kind id v) (l.update kind id v) := by
  cases hheld : (s.get? kind id).isSome with
  | false =>
    have hs : s.update kind id v = .error .notFound := by
      rw [Store.get?, Option.isSome_map, Option.isSome_eq_false_iff, Option.isNone_iff_eq_none]
        at hheld
      simp [Store.update, hheld]
    have hl : l.update kind id v = .error .notFound := by
      simp [Ledger.update, Ledger.any_isAt, h.get?, hheld]
    rw [hs, hl]
    exact ⟨rfl, h⟩
  | true =>
    obtain ⟨s', hs⟩ := exists_update hheld v
    have hl : l.update kind id v = .ok (l.map fun line =>
        if Ledger.isAt kind id line then { line with resource := v } else line) := by
      simp [Ledger.update, Ledger.any_isAt, h.get?, hheld]
    obtain ⟨hnumbered, hordered, hrest⟩ := ordered_update h.numbered hs
    have hkind (other : Kind) (line : Line) :
        ((if Ledger.isAt kind id line then { line with resource := v } else line).kind == other) =
          (line.kind == other) := by
      split_ifs <;> rfl
    rw [hs, hl]
    refine h.change hnumbered ?_ hrest fun other ho => ?_
    · have hlines := h.lines kind
      simp only [Ledger.linesOf, List.filter_map, Function.comp_def, hkind] at hlines ⊢
      rw [hordered, hlines, List.map_map, List.map_map]
      refine List.map_congr_left fun m _ => ?_
      by_cases hm : m.1 = id <;> simp [line, renewed, Ledger.isAt, hm]
    · simp only [Ledger.linesOf, List.filter_map, Function.comp_def, hkind]
      refine (List.map_congr_left fun line hline => ?_).trans (List.map_id _)
      have hother : line.kind = other := by simpa using (List.mem_filter.mp hline).2
      simp [Ledger.isAt, hother, ho]

theorem Accounts.delete (h : s.Accounts l) (kind : Kind) (id : String) :
    s.Agree l (s.delete kind id) (l.delete kind id) := by
  cases hheld : (s.get? kind id).isSome with
  | false =>
    simpa [Agree, Store.delete, Ledger.delete, Ledger.any_isAt, h.get?, hheld] using h
  | true =>
    obtain ⟨s', hs⟩ : ∃ s', s.delete kind id = .ok s' := by simp [Store.delete, hheld]
    have hl : l.delete kind id = .ok (l.filter fun line => !Ledger.isAt kind id line) := by
      simp [Ledger.delete, Ledger.any_isAt, h.get?, hheld]
    obtain ⟨hnumbered, hordered, hrest⟩ := ordered_delete h.numbered hs
    rw [hs, hl]
    refine h.change hnumbered ?_ hrest fun other ho => ?_
    · have hlines := h.lines kind
      simp only [Ledger.linesOf] at hlines ⊢
      rw [List.filter_comm, hlines, hordered, List.filter_map]
      refine congrArg (List.map _) (List.filter_congr fun m _ => ?_)
      rw [Bool.eq_iff_iff]
      simp [line, Ledger.isAt]
    · simp only [Ledger.linesOf, List.filter_filter]
      refine List.filter_congr fun line _ => ?_
      by_cases hkind : line.kind = other
      · simp [Ledger.isAt, hkind, ho]
      · simp [hkind]

/-! ### Runs -/

/-- The calls with the replies to them, one after another. -/
def replies (s : Store) : List Call → List Replied
  | [] => []
  | c :: rest => ⟨c, (s.answer c).1⟩ :: (s.answer c).2.replies rest

/-- One call: an account allows the reply, and accounts for the store that is left. -/
theorem Accounts.answer (h : s.Accounts l) (c : Call) :
    l.Allows c (s.answer c).1 ∧ (s.answer c).2.Accounts (l.after c) := by
  cases c with
  | get kind id => exact ⟨(h.get? kind id).symm, h⟩
  | list kind filter =>
    refine ⟨?_, h⟩
    change s.list kind filter = l.list kind filter
    rw [Store.list, Ledger.list, h.resources]
  | count kind => exact ⟨(h.count kind).symm, h⟩
  | find probe => exact ⟨h.find probe, h⟩
  | insert kind resource => exact (h.insert kind resource).reply resource
  | update kind id resource => exact (h.update kind id resource).reply resource
  | delete kind id => exact (h.delete kind id).reply ()

/-- A run: an account allows the replies to all calls. -/
theorem Accounts.replies (h : s.Accounts l) (calls : List Call) :
    l.AllowsAll (s.replies calls) := by
  induction calls generalizing s l with
  | nil => exact .nil l
  | cons c rest ih =>
    obtain ⟨hreply, hleft⟩ := h.answer c
    exact .cons hreply (ih hleft)

/-- A refused change leaves the store as it is. -/
theorem answer_refused {c : Call} (h : c.isRefusal (s.answer c).1 = true) : (s.answer c).2 = s := by
  cases c with
  | insert kind resource =>
    cases hi : s.insert kind resource <;> simp [answer, reply, hi, Call.isRefusal] at h ⊢
  | update kind id resource =>
    cases hu : s.update kind id resource <;> simp [answer, reply, hu, Call.isRefusal] at h ⊢
  | delete kind id =>
    cases hd : s.delete kind id <;> simp [answer, reply, hd, Call.isRefusal] at h ⊢
  | _ => cases h

/-- Without a call that is refused, the replies to the others are the same. -/
theorem replies_eraseIdx {calls : List Call} {i : Nat} {r : Replied}
    (h : (s.replies calls)[i]? = some r) (hr : r.1.isRefusal r.2 = true) :
    s.replies (calls.eraseIdx i) = (s.replies calls).eraseIdx i := by
  induction calls generalizing s i with
  | nil => simp [replies] at h
  | cons c rest ih =>
    cases i with
    | zero =>
      obtain rfl : (⟨c, (s.answer c).1⟩ : Replied) = r := by simpa [replies] using h
      simp [replies, answer_refused hr]
    | succ i =>
      have hrest : ((s.answer c).2.replies rest)[i]? = some r := by simpa [replies] using h
      simp [replies, ih hrest]

/-- To any calls, an empty store replies as the empty list does, call by call; a call that is
refused makes no difference to the replies to other calls. -/
theorem replies_accounted (calls : List Call) :
    (empty.replies calls).map (·.1) = calls ∧ Ledger.AllowsAll [] (empty.replies calls) ∧
      ∀ i r, (empty.replies calls)[i]? = some r → r.1.isRefusal r.2 = true →
        empty.replies (calls.eraseIdx i) = (empty.replies calls).eraseIdx i := by
  have hcalls (s : Store) : (s.replies calls).map (·.1) = calls := by
    induction calls generalizing s with
    | nil => rfl
    | cons c rest ih => rw [replies, List.map_cons, ih]
  exact ⟨hcalls empty, accounts_empty.replies calls, fun i r h hr => replies_eraseIdx h hr⟩

/-- Two users and a group under the identifier of one of them; a second resource under an identifier
that is taken is refused, and a deleted one can be added again. -/
def sampleCalls : List Call :=
  [ .insert .user (.obj [("id", .str "a"), ("userName", .str "bj")]),
    .insert .group (.obj [("displayName", .str "Staff"), ("id", .str "a")]),
    .insert .user (.obj [("id", .str "a"), ("userName", .str "jo")]),
    .insert .user (.obj [("id", .str "b"), ("userName", .str "al")]),
    .delete .user "a",
    .insert .user (.obj [("id", .str "a"), ("userName", .str "jo")]),
    .update .user "b" (.obj [("id", .str "b"), ("userName", .str "bo")]),
    .list .user none,
    .find ⟨.user, "userName", "BO", false, none⟩ ]

theorem replies_accounted_sample : ∃ r, (empty.replies sampleCalls)[2]? = some r ∧
    r.1.isRefusal r.2 = true ∧ Ledger.AllowsAll [] (empty.replies sampleCalls) ∧
      empty.replies (sampleCalls.eraseIdx 2) = (empty.replies sampleCalls).eraseIdx 2 := by
  obtain ⟨-, hallowed, herased⟩ := replies_accounted sampleCalls
  have hrefused : ((empty.replies sampleCalls)[2]?.any fun r => r.1.isRefusal r.2) = true := by
    decide
  obtain ⟨r, hr, hrefusal⟩ := (Option.any_eq_true _ _).mp hrefused
  exact ⟨r, hr, hrefusal, hallowed, herased 2 r hr hrefusal⟩

end Store

end Roster
