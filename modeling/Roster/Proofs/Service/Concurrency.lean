import Mathlib.Data.List.FinRange
import Mathlib.Data.List.Nodup
import Mathlib.Logic.Function.Basic
import Roster.Proofs.Service.Action

/-!
Writers side by side. Each prepares its request, takes the lock, makes its calls to the store one
by one, and gives the lock back. However their steps are interleaved, the store and the outcomes are
those of the requests one after another, in the order in which they took the lock. -/

namespace Roster

namespace Service

/-- What a change comes to: the resource as it is shown, or nothing after a deletion. -/
abbrev Outcome := Except ServiceError (Option Json)

/-- What is checked for an action beforehand, and then its work under the lock. -/
def changeOf (s : Service) : Action → Change (Option Json)
  | .create kind body baseUrl id now =>
    (s.create kind body baseUrl id now).map fun work => do pure (some (← work))
  | .replace kind id body baseUrl now =>
    (s.replace kind id body baseUrl now).map fun work => do pure (some (← work))
  | .patch kind id request baseUrl now =>
    (s.patch kind id request baseUrl now).map fun work => do pure (some (← work))
  | .delete kind id clock => (s.delete kind id clock).map fun work => do work; pure none

/-- How far a writer has come: nothing is done yet, it waits for the lock, it holds the lock and has
these calls left, or it has answered. -/
inductive Progress where
  | arrived
  | prepared (work : Task (Option Json))
  | working (rest : Script Outcome)
  | finished (outcome : Outcome)

/-- The outcome, once there is one. -/
def Progress.outcome? : Progress → Option Outcome
  | .finished outcome => some outcome
  | _ => none

/-- Writers on one store. `acquired` tells which of them took the lock, in the order in which they
took it. -/
structure Writers (n : Nat) where
  store : Store
  holder : Option (Fin n)
  progress : Fin n → Progress
  acquired : List (Fin n)

namespace Writers

variable {n : Nat}

/-- All requests have arrived, and none is prepared. -/
def start (n : Nat) (st : Store) : Writers n := ⟨st, none, fun _ => .arrived, []⟩

/-- One writer has come to another point. -/
def move (c : Writers n) (i : Fin n) (p : Progress) : Writers n :=
  { c with progress := Function.update c.progress i p }

/-- The next step of one writer; none when it has answered or waits for a lock that is held. -/
def step? (s : Service) (requests : Fin n → Action) (c : Writers n) (i : Fin n) :
    Option (Writers n) :=
  match c.progress i with
  | .arrived =>
    match s.changeOf (requests i) with
    | .ok work => some (c.move i (.prepared work))
    | .error e => some (c.move i (.finished (.error e)))
  | .prepared work =>
    if c.holder.isNone then
      some { c.move i (.working (ExceptT.run work)) with
        holder := some i, acquired := c.acquired ++ [i] }
    else none
  | .working (.call call next) =>
    some { c.move i (.working (next (c.store.answer call).1)) with
      store := (c.store.answer call).2 }
  | .working (.done outcome) => some { c.move i (.finished outcome) with holder := none }
  | .finished _ => none

/-- Steps in the order of a schedule, each by the writer it names. -/
def run? (s : Service) (requests : Fin n → Action) (c : Writers n) (schedule : List (Fin n)) :
    Option (Writers n) :=
  schedule.foldlM (step? s requests) c

/-- Every request has been answered. -/
def Done (c : Writers n) : Prop :=
  ∀ i, (c.progress i).outcome?.isSome = true

instance (c : Writers n) : Decidable c.Done :=
  inferInstanceAs (Decidable (∀ i, (c.progress i).outcome?.isSome = true))

/-- An order of all requests in which those that took the lock stand as they took it. -/
structure Follows (c : Writers n) (order : List (Fin n)) : Prop where
  all : order.Perm (List.finRange n)
  inTurn : order.filter (· ∈ c.acquired) = c.acquired

end Writers

/-- Requests one after another: their outcomes, and the store they leave. -/
def serially {n : Nat} (s : Service) (requests : Fin n → Action) :
    List (Fin n) → Store → List Outcome × Store
  | [], st => ([], st)
  | i :: rest, st =>
    let (outcome, st') := (s.changeOf (requests i)).task.run st
    let (outcomes, last) := s.serially requests rest st'
    (outcome :: outcomes, last)

variable {n : Nat} {s : Service} {requests : Fin n → Action} {st : Store}

/-! ### One after another -/

/-- The work on an action leaves the store that the action leaves. -/
theorem changeOf_left (s : Service) (st : Store) (a : Action) :
    ((s.changeOf a).task.run st).2 = s.perform st a := by
  have reshaped {α : Type} (c : Change α) (f : α → Option Json) :
      ((Change.task (c.map fun work => work >>= fun v => pure (f v))).run st).2 =
        (c.task.run st).2 := by
    cases c with
    | ok work => exact Task.run_bind_reads (fun v => .pure _) work st
    | error e => rfl
  cases a with
  | create kind body baseUrl id now => exact reshaped (s.create kind body baseUrl id now) some
  | replace kind id body baseUrl now => exact reshaped (s.replace kind id body baseUrl now) some
  | patch kind id request baseUrl now =>
    exact reshaped (s.patch kind id request baseUrl now) some
  | delete kind id clock => exact reshaped (s.delete kind id clock) fun _ => none

/-- The store after requests in turn is the one that their changes in turn leave. -/
theorem serially_store (order : List (Fin n)) (st : Store) :
    (s.serially requests order st).2 = s.performAll st (order.map requests) := by
  induction order generalizing st with
  | nil => rfl
  | cons i rest ih =>
    rw [serially, ih, changeOf_left]
    rfl

theorem serially_append (order others : List (Fin n)) (st : Store) :
    s.serially requests (order ++ others) st =
      ((s.serially requests order st).1 ++
          (s.serially requests others (s.serially requests order st).2).1,
        (s.serially requests others (s.serially requests order st).2).2) := by
  induction order generalizing st with
  | nil => rfl
  | cons i rest ih => simp only [List.cons_append, serially, ih]

/-- Requests that are refused before they take the lock may stand anywhere between the others. -/
theorem serially_of_filter (taken : List (Fin n)) {outcome : Fin n → Option Outcome}
    (hrefused : ∀ i, i ∉ taken → ∃ e, s.changeOf (requests i) = .error e ∧
      outcome i = some (.error e))
    {order : List (Fin n)} {st last : Store}
    (h : (s.serially requests (order.filter (· ∈ taken)) st).1.map some =
        (order.filter (· ∈ taken)).map outcome)
    (hlast : (s.serially requests (order.filter (· ∈ taken)) st).2 = last) :
    (s.serially requests order st).1.map some = order.map outcome ∧
      (s.serially requests order st).2 = last := by
  induction order generalizing st with
  | nil => exact ⟨rfl, hlast⟩
  | cons i rest ih =>
    by_cases hi : i ∈ taken
    · simp only [List.filter_cons, hi, decide_true, if_true, serially, List.map_cons,
        List.cons.injEq] at h hlast
      obtain ⟨hrest, hstore⟩ := ih h.2 hlast
      exact ⟨by simp only [serially, List.map_cons, h.1, hrest], hstore⟩
    · -- a refused request leaves the store as it is, so it may stand anywhere
      obtain ⟨e, he, hout⟩ := hrefused i hi
      have hrun : (s.changeOf (requests i)).task.run st = (.error e, st) := by
        rw [he]
        rfl
      simp only [List.filter_cons, hi, decide_false] at h hlast
      obtain ⟨hrest, hstore⟩ := ih h hlast
      refine ⟨?_, ?_⟩
      · simp only [serially, hrun, List.map_cons, hout, hrest]
      · simp only [serially, hrun, hstore]

/-! ### Side by side -/

namespace Writers

variable {c c' : Writers n} {i : Fin n}

@[simp] theorem move_progress_self (c : Writers n) (i : Fin n) (p : Progress) :
    (c.move i p).progress i = p := by
  simp [move]

theorem move_progress_of_ne {j : Fin n} (h : j ≠ i) (p : Progress) :
    (c.move i p).progress j = c.progress j := by
  simp [move, h]

/-- The outcome that a writer has, or comes to if it makes the calls it has left at once. -/
def expected? (c : Writers n) (i : Fin n) : Option Outcome :=
  match c.progress i with
  | .working rest => some (rest.run c.store).1
  | p => p.outcome?

/-- The store when the holder of the lock makes the calls it has left at once. -/
def settled (c : Writers n) : Store :=
  match c.holder.map c.progress with
  | some (.working rest) => (rest.run c.store).2
  | _ => c.store

/-- One writer at most is at work, the one that holds the lock; the others that took it have
answered; and if the one at work makes the calls it has left at once, outcomes and store are those
of the requests in turn. -/
structure Orderly (s : Service) (requests : Fin n → Action) (st : Store) (c : Writers n) :
    Prop where
  distinct : c.acquired.Nodup
  waiting : ∀ i, i ∉ c.acquired → c.progress i = .arrived ∨
    (∃ work, s.changeOf (requests i) = .ok work ∧ c.progress i = .prepared work) ∨
    ∃ e, s.changeOf (requests i) = .error e ∧ c.progress i = .finished (.error e)
  entered : ∀ i ∈ c.acquired, (c.holder = some i ∧ ∃ rest, c.progress i = .working rest) ∨
    (c.holder ≠ some i ∧ ∃ outcome, c.progress i = .finished outcome)
  held : ∀ i, c.holder = some i → i ∈ c.acquired
  outcomes : (s.serially requests c.acquired st).1.map some = c.acquired.map c.expected?
  store : (s.serially requests c.acquired st).2 = c.settled

theorem orderly_start (s : Service) (requests : Fin n → Action) (st : Store) :
    Orderly s requests st (start n st) where
  distinct := List.nodup_nil
  waiting _ _ := .inl rfl
  entered i h := by simp [start] at h
  held i h := by simp [start] at h
  outcomes := rfl
  store := rfl

namespace Orderly

/-- A writer at work holds the lock. -/
theorem working (h : Orderly s requests st c) {rest : Script Outcome}
    (hi : c.progress i = .working rest) : c.holder = some i ∧ i ∈ c.acquired := by
  by_cases hmem : i ∈ c.acquired
  · rcases h.entered i hmem with ⟨hholder, -⟩ | ⟨-, outcome, hfinished⟩
    · exact ⟨hholder, hmem⟩
    · simp [hi] at hfinished
  · rcases h.waiting i hmem with hw | ⟨work, -, hw⟩ | ⟨e, -, hw⟩ <;> simp [hi] at hw

/-- What a writer that has not taken the lock does before does not matter to the others. -/
theorem move_waiting (h : Orderly s requests st c) {p : Progress}
    (hi : c.progress i = .arrived)
    (hp : (∃ work, s.changeOf (requests i) = .ok work ∧ p = .prepared work) ∨
      ∃ e, s.changeOf (requests i) = .error e ∧ p = .finished (.error e)) :
    Orderly s requests st (c.move i p) := by
  have hnot : i ∉ c.acquired := by
    intro hmem
    rcases h.entered i hmem with ⟨-, rest, hw⟩ | ⟨-, outcome, hw⟩ <;> simp [hi] at hw
  -- outcomes and store speak only of writers that took the lock, and `i` has not
  have other {j : Fin n} (hj : j ∈ c.acquired) : (c.move i p).progress j = c.progress j :=
    move_progress_of_ne (by rintro rfl; exact hnot hj) p
  refine ⟨h.distinct, fun j hj => ?_, fun j hj => ?_, h.held, ?_, ?_⟩
  · by_cases hji : j = i
    · subst hji
      rw [move_progress_self]
      exact .inr hp
    · rw [move_progress_of_ne hji]
      exact h.waiting j hj
  · rw [other hj]
    exact h.entered j hj
  · refine h.outcomes.trans (List.map_congr_left fun j hj => ?_)
    simp only [expected?, other hj]
    rfl
  · refine h.store.trans ?_
    have hholder : (c.move i p).holder.map (c.move i p).progress = c.holder.map c.progress := by
      cases hc : c.holder with
      | none => simp [move, hc]
      | some j =>
        have := other (h.held j hc)
        simp only [move, hc, Option.map_some] at this ⊢
        rw [this]
    unfold settled
    rw [hholder]
    rfl

/-- A prepared writer takes a lock that nobody holds. -/
theorem acquire (h : Orderly s requests st c) {work : Task (Option Json)}
    (hi : c.progress i = .prepared work) (hfree : c.holder = none) :
    Orderly s requests st { c.move i (.working (ExceptT.run work)) with
      holder := some i, acquired := c.acquired ++ [i] } := by
  have hnot : i ∉ c.acquired := by
    intro hmem
    rcases h.entered i hmem with ⟨-, rest, hw⟩ | ⟨-, outcome, hw⟩ <;> simp [hi] at hw
  have hchange : s.changeOf (requests i) = .ok work := by
    rcases h.waiting i hnot with hw | ⟨work', hok, hw⟩ | ⟨e, -, hw⟩
    · simp [hi] at hw
    · rw [hi] at hw
      rwa [Progress.prepared.inj hw]
    · simp [hi] at hw
  have hrun (st' : Store) : (s.changeOf (requests i)).task.run st' =
      (ExceptT.run work).run st' := by
    rw [hchange]
    rfl
  have hne {j : Fin n} (hj : j ∈ c.acquired) : j ≠ i := by
    rintro rfl
    exact hnot hj
  have hstore : (s.serially requests c.acquired st).2 = c.store := by
    rw [h.store, settled, hfree]
    rfl
  refine ⟨?_, fun j hj => ?_, fun j hj => ?_, fun j hj => ?_, ?_, ?_⟩
  · exact h.distinct.append (List.nodup_singleton i) (by simpa using hnot)
  · obtain ⟨hj, hji⟩ : j ∉ c.acquired ∧ j ≠ i := by simpa using hj
    rw [move_progress_of_ne hji]
    exact h.waiting j hj
  · rcases List.mem_append.mp hj with hj | hj
    · -- those that took the lock before have answered, as nobody holds it
      refine .inr ⟨fun heq => hne hj (Option.some.inj heq).symm, ?_⟩
      rw [move_progress_of_ne (hne hj)]
      rcases h.entered j hj with ⟨hholder, -⟩ | ⟨-, hfinished⟩
      · simp [hfree] at hholder
      · exact hfinished
    · obtain rfl := List.mem_singleton.mp hj
      exact .inl ⟨rfl, _, move_progress_self _ _ _⟩
  · cases hj
    exact List.mem_append_right _ List.mem_cons_self
  · -- the turn of `i` comes last, at the store that the others left
    rw [serially_append, List.map_append, List.map_append, h.outcomes, hstore]
    refine congrArg₂ _ (List.map_congr_left fun j hj => ?_) ?_
    · simp only [expected?, move_progress_of_ne (hne hj)]
      rfl
    · simp only [serially, hrun, expected?, move_progress_self, List.map_cons, List.map_nil]
      rfl
  · rw [serially_append, hstore]
    simp only [serially, hrun, settled, Option.map_some, move_progress_self]
    rfl

/-- The writer at work goes on: it has calls left after this one, or it gives the lock back. Either
way the outcome and the store that it comes to stay the same. -/
theorem advance (h : Orderly s requests st c) {rest : Script Outcome} {p : Progress}
    (holder : Option (Fin n)) {st' : Store} (hi : c.progress i = .working rest)
    (hp : (holder = some i ∧ ∃ rest', p = .working rest' ∧ rest'.run st' = rest.run c.store) ∨
      (holder = none ∧ ∃ outcome, p = .finished outcome ∧ rest.run c.store = (outcome, st'))) :
    Orderly s requests st { c.move i p with holder := holder, store := st' } := by
  obtain ⟨hholder, hmem⟩ := h.working hi
  have others {j : Fin n} (hj : j ∈ c.acquired) (hji : j ≠ i) :
      ∃ outcome, c.progress j = .finished outcome := by
    rcases h.entered j hj with ⟨hj', -⟩ | ⟨-, hfinished⟩
    · rw [hholder] at hj'
      exact absurd (Option.some.inj hj').symm hji
    · exact hfinished
  have hsettled : c.settled = (rest.run c.store).2 := by
    simp only [settled, hholder, Option.map_some, hi]
  refine ⟨h.distinct, fun j hj => ?_, fun j hj => ?_, fun j hj => ?_, ?_, ?_⟩
  · rw [move_progress_of_ne (by rintro rfl; exact hj hmem)]
    exact h.waiting j hj
  · by_cases hji : j = i
    · subst hji
      rcases hp with ⟨rfl, rest', rfl, -⟩ | ⟨rfl, outcome, rfl, -⟩
      · exact .inl ⟨rfl, rest', move_progress_self _ _ _⟩
      · exact .inr ⟨by simp, outcome, move_progress_self _ _ _⟩
    · refine .inr ⟨?_, ?_⟩
      · rcases hp with ⟨rfl, -⟩ | ⟨rfl, -⟩
        · exact fun heq => hji (Option.some.inj heq).symm
        · simp
      · rw [move_progress_of_ne hji]
        exact others hj hji
  · rcases hp with ⟨rfl, -⟩ | ⟨rfl, -⟩
    · exact Option.some.inj hj ▸ hmem
    · cases hj
  · refine h.outcomes.trans (List.map_congr_left fun j hj => ?_)
    by_cases hji : j = i
    · subst hji
      rcases hp with ⟨-, rest', rfl, hrun⟩ | ⟨-, outcome, rfl, hrun⟩
      · simp only [expected?, hi, move_progress_self, hrun]
      · simp only [expected?, hi, move_progress_self, hrun, Progress.outcome?]
    · obtain ⟨outcome, ho⟩ := others hj hji
      simp only [expected?, move_progress_of_ne hji, ho]
  · refine (h.store.trans hsettled).trans ?_
    rcases hp with ⟨rfl, rest', rfl, hrun⟩ | ⟨rfl, outcome, rfl, hrun⟩
    · simp only [settled, Option.map_some, move_progress_self, hrun]
    · simp only [settled, Option.map_none, hrun]

end Orderly

/-- Every step leaves the writers in order. -/
theorem step?_orderly (h : Orderly s requests st c) (hstep : step? s requests c i = some c') :
    Orderly s requests st c' := by
  unfold step? at hstep
  split at hstep
  · -- `i` prepares its request, or is refused
    rename_i hi
    cases hchange : s.changeOf (requests i) with
    | ok work =>
      simp only [hchange, Option.some.injEq] at hstep
      subst hstep
      exact h.move_waiting hi (.inl ⟨work, hchange, rfl⟩)
    | error e =>
      simp only [hchange, Option.some.injEq] at hstep
      subst hstep
      exact h.move_waiting hi (.inr ⟨e, hchange, rfl⟩)
  · -- `i` takes the lock
    rename_i work hi
    split_ifs at hstep with hfree
    cases hstep
    exact h.acquire hi (Option.isNone_iff_eq_none.mp hfree)
  · -- `i` makes its next call, at the store that it runs from
    rename_i call next hi
    cases hstep
    have hholder := (h.working hi).1
    have hnext := h.advance (some i) hi
      (.inl ⟨rfl, next (c.store.answer call).1, rfl, rfl⟩)
    rwa [← hholder] at hnext
  · -- `i` has no call left
    rename_i outcome hi
    cases hstep
    exact h.advance none hi (.inr ⟨rfl, outcome, rfl, rfl⟩)
  · cases hstep

theorem run?_orderly {schedule : List (Fin n)} (h : Orderly s requests st c)
    (hrun : run? s requests c schedule = some c') : Orderly s requests st c' := by
  induction schedule generalizing c with
  | nil =>
    cases hrun
    exact h
  | cons i rest ih =>
    obtain ⟨c₁, hstep, hrest⟩ := Option.bind_eq_some_iff.mp hrun
    exact ih (step?_orderly h hstep) hrest

/-- As long as a request has no answer, some writer can make a step. -/
theorem exists_step? (h : Orderly s requests st c) (hdone : ¬c.Done) :
    ∃ i, (step? s requests c i).isSome = true := by
  obtain ⟨i, hi⟩ := not_forall.mp hdone
  cases hholder : c.holder with
  | some j =>
    -- the holder of the lock never waits
    obtain ⟨rest, hj⟩ : ∃ rest, c.progress j = .working rest := by
      rcases h.entered j (h.held j hholder) with ⟨-, hworking⟩ | ⟨hne, -⟩
      · exact hworking
      · exact absurd hholder hne
    refine ⟨j, ?_⟩
    cases rest <;> simp [step?, hj]
  | none =>
    refine ⟨i, ?_⟩
    cases hp : c.progress i with
    | arrived => cases hchange : s.changeOf (requests i) <;> simp [step?, hp, hchange]
    | prepared work => simp [step?, hp, hholder]
    | working rest => simp [(h.working hp).1] at hholder
    | finished outcome => simp [hp, Progress.outcome?] at hi

end Writers

/-! ### Serializability -/

/-- Requests that take the lock in some order can all be put into an order with the others. -/
theorem Writers.Orderly.follows {c : Writers n} (h : c.Orderly s requests st) :
    c.Follows (c.acquired ++ (List.finRange n).filter (· ∉ c.acquired)) where
  all := by
    have htaken : ((List.finRange n).filter (· ∈ c.acquired)).Perm c.acquired := by
      refine (List.perm_ext_iff_of_nodup ((List.nodup_finRange n).filter _) h.distinct).mpr ?_
      simp
    have hsplit := List.filter_append_perm (· ∈ c.acquired) (List.finRange n)
    simp only [← decide_not] at hsplit
    exact (htaken.symm.append_right _).trans hsplit
  inTurn := by
    rw [List.filter_append, List.filter_filter]
    simp [List.filter_eq_self.mpr]

/-- However the steps of writers are interleaved, the store that is left and the outcomes are those
of the requests one after another, in every order that puts those which took the lock as they took
it. -/
theorem run?_serializable {c : Writers n} {schedule : List (Fin n)}
    (hrun : Writers.run? s requests (.start n st) schedule = some c) (hdone : c.Done) :
    (∃ order, c.Follows order) ∧ ∀ order, c.Follows order →
      (s.serially requests order st).1.map some = order.map (fun i => (c.progress i).outcome?) ∧
        (s.serially requests order st).2 = c.store := by
  have h := Writers.run?_orderly (Writers.orderly_start s requests st) hrun
  refine ⟨⟨_, h.follows⟩, fun order ho => ?_⟩
  -- nobody is at work any more: what writers come to is what they have
  have finished {i : Fin n} : c.expected? i = (c.progress i).outcome? := by
    have hi := hdone i
    unfold Writers.expected?
    cases hp : c.progress i <;> simp_all [Progress.outcome?]
  have hfree : c.settled = c.store := by
    unfold Writers.settled
    cases hholder : c.holder with
    | none => rfl
    | some i =>
      have hi := hdone i
      simp only [Option.map_some]
      cases hp : c.progress i <;> simp_all [Progress.outcome?]
  refine serially_of_filter c.acquired (fun i hi => ?_) ?_ ?_
  · rcases h.waiting i hi with hw | ⟨work, -, hw⟩ | ⟨e, he, hw⟩
    · simpa [hw, Progress.outcome?] using hdone i
    · simpa [hw, Progress.outcome?] using hdone i
    · exact ⟨e, he, by rw [hw]; rfl⟩
  · rw [ho.inTurn, h.outcomes]
    exact List.map_congr_left fun i _ => finished
  · rw [ho.inTurn, h.store, hfree]

/-- Two modifications of one user, and a body without a user name. -/
def sharedActions : Fin 3 → Action
  | 0 => .patch .user "u1" ⟨[Urn.patchOperation],
      [.add (some "emails") (.arr [.obj [("type", .str "home"), ("value", .str "a")]])]⟩ "" default
  | 1 => .patch .user "u1" ⟨[Urn.patchOperation],
      [.add (some "emails") (.arr [.obj [("type", .str "work"), ("value", .str "b")]])]⟩ "" default
  | 2 => .create .user (.obj [("schemas", .arr [.str Urn.user])]) "" "u2" default

/-- A service that takes the text of a content for its version. -/
def plainService : Service := ⟨.standard, .standard, Json.toText⟩

def sharedStore : Store :=
  plainService.perform .empty (.create .user
    (.obj [("schemas", .arr [.str Urn.user]), ("userName", .str "bj")]) "" "u1" default)

/-- The second writer takes the lock first; the others prepare their requests in the meantime. -/
def sharedSchedule : List (Fin 3) := [0, 1, 1, 1, 2, 1, 1, 1, 1, 0, 0, 0, 0, 0, 0]

theorem run?_serializable_shared : ∃ c : Writers 3,
    Writers.run? plainService sharedActions (.start 3 sharedStore) sharedSchedule = some c ∧
      c.Done ∧ c.acquired = [1, 0] ∧
      ((∃ order, c.Follows order) ∧ ∀ order, c.Follows order →
        (plainService.serially sharedActions order sharedStore).1.map some =
            order.map (fun i => (c.progress i).outcome?) ∧
          (plainService.serially sharedActions order sharedStore).2 = c.store) := by
  have hrun : (Writers.run? plainService sharedActions (.start 3 sharedStore) sharedSchedule).any
      (fun c => decide (c.Done ∧ c.acquired = [1, 0])) = true := by decide +kernel
  obtain ⟨c, hc, hp⟩ := Option.any_eq_true _ _ |>.mp hrun
  obtain ⟨hdone, hacquired⟩ := of_decide_eq_true hp
  exact ⟨c, hc, hdone, hacquired, run?_serializable hc hdone⟩

end Service

end Roster
