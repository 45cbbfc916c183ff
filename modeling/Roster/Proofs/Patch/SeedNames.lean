import Roster.Proofs.Members.Others
import Roster.Proofs.Patch.Seeded
import Roster.Proofs.Success

/-! The element that an addition makes holds the values which the filter asks for, under the names
as the filter spells them, and the given values over them. It is checked as one object, in which
several spellings of one name meet: the last of them in the order of the names counts. -/

namespace Roster

open Members

/-! ### Why a check fails -/

section

variable {α β : Type} {x : Except PatchFault α} {owner : String} {definitions : List Attribute}

/-- A computation that fails for an invalid value, if at all. -/
def FailsInvalid (x : Except PatchFault α) : Prop :=
  ∀ e, x = .error e → e.type = .invalidValue

theorem FailsInvalid.ok (a : α) : FailsInvalid (.ok a) :=
  fun _ h => by cases h

theorem FailsInvalid.error {e : PatchFault} (h : e.type = .invalidValue) :
    FailsInvalid (.error e : Except PatchFault α) :=
  fun _ he => Except.error.inj he ▸ h

theorem FailsInvalid.bind {f : α → Except PatchFault β} (hx : FailsInvalid x)
    (hf : ∀ a, FailsInvalid (f a)) : FailsInvalid (x >>= f) := by
  cases x with
  | ok a => exact hf a
  | error e => exact .error (hx e rfl)

theorem FailsInvalid.map {f : α → β} (hx : FailsInvalid x) : FailsInvalid (x.map f) := by
  cases x with
  | ok a => exact .ok (f a)
  | error e => exact .error (hx e rfl)

theorem FailsInvalid.scalar (a : Attribute) (v : Json) : FailsInvalid (checkScalar a v) := by
  unfold checkScalar
  cases a.type.admit? v with
  | some w => exact .ok w
  | none => exact .error rfl

theorem FailsInvalid.value_of {a : Attribute} {v : Json}
    (helements : FailsInvalid (checkElements a v)) (hsingle : FailsInvalid (checkSingle a v)) :
    FailsInvalid (checkValue a v) := by
  unfold checkValue
  split_ifs
  · exact helements.map
  · exact hsingle

mutual

theorem FailsInvalid.single (a : Attribute) : (v : Json) → FailsInvalid (checkSingle a v)
  | .obj members => by
    by_cases hc : a.type = .complex
    · rw [checkSingle_complex hc]
      exact (FailsInvalid.pairs _ _ members).map.map
    · rw [checkSingle_of_ne_complex hc]
      exact .scalar a _
  | .null | .bool _ | .num _ | .str _ | .arr _ => by
    rw [checkSingle_of_not_object rfl]
    split_ifs
    · exact .error rfl
    · exact .scalar a _
termination_by v => (sizeOf v, 0)

theorem FailsInvalid.items (a : Attribute) :
    (items : List Json) → FailsInvalid (checkItems a items)
  | [] => .ok []
  | v :: rest => (FailsInvalid.single a v).bind fun _ => (FailsInvalid.items a rest).bind fun _ =>
      .ok _
termination_by items => (sizeOf items, 0)

theorem FailsInvalid.elements (a : Attribute) : (v : Json) → FailsInvalid (checkElements a v)
  | .arr items => FailsInvalid.items a items
  | .null | .bool _ | .num _ | .str _ | .obj _ =>
    (FailsInvalid.single a _).bind fun _ => .ok _
termination_by v => (sizeOf v, 1)

theorem FailsInvalid.pairs (owner : String) (definitions : List Attribute) :
    (members : List (String × Json)) → FailsInvalid (checkPairs owner definitions members)
  | [] => .ok []
  | (key, v) :: rest => by
    rw [checkPairs_cons]
    split
    · exact .error rfl
    · rename_i a _
      split_ifs
      · exact FailsInvalid.pairs owner definitions rest
      · exact (FailsInvalid.value_of (.elements a v) (.single a v)).bind fun _ =>
          (FailsInvalid.pairs owner definitions rest).bind fun _ => .ok _
termination_by members => (sizeOf members, 0)

end

end

/-! ### What a check makes of several spellings -/

section

variable {owner : String} {definitions : List Attribute} {pairs : List (String × Json)}
  {ms : Members Json} {d : Attribute}

/-- A member that an object may have: it has a definition, and where clients may write it the value
passes. -/
def PassesCheck (definitions : List Attribute) (m : String × Json) : Prop :=
  ∃ d, findAttribute? definitions m.1 = some d ∧
    (d.isReadOnly = true ∨ m.2.isNull = true ∨ ∃ w, checkValue d m.2 = .ok w)

theorem PassesCheck.congr {m n : String × Json} (h : PassesCheck definitions m)
    (hs : sameName m.1 n.1 = true) (hv : n.2 = m.2) : PassesCheck definitions n := by
  obtain ⟨d, hd, hpass⟩ := h
  exact ⟨d, findAttribute?_congr definitions hs ▸ hd, hv ▸ hpass⟩

theorem exists_checkPairs : (∃ pairs, checkPairs owner definitions ms = .ok pairs) ↔
    ∀ m ∈ ms, PassesCheck definitions m := by
  induction ms with
  | nil => exact ⟨fun _ => List.forall_mem_nil _, fun _ => ⟨[], rfl⟩⟩
  | cons m rest ih =>
    obtain ⟨key, v⟩ := m
    rw [List.forall_mem_cons, ← ih, checkPairs_cons]
    cases hd : findAttribute? definitions key with
    | none => simp [PassesCheck, hd]
    | some d =>
      by_cases hskip : d.isReadOnly = true ∨ v.isNull = true
      · have hpass : PassesCheck definitions (key, v) := ⟨d, hd, hskip.imp_right .inl⟩
        simp [hskip, hpass]
      · have hpass : PassesCheck definitions (key, v) ↔ ∃ w, checkValue d v = .ok w := by
          rw [not_or] at hskip
          simp [PassesCheck, hd, hskip]
        rw [hpass]
        simp [hskip, bind_eq_ok]

/-- The definition of exactly this name, if clients may write what it defines. -/
def writable? (definitions : List Attribute) (name : String) : Option Attribute :=
  (findAttribute? definitions name).filter fun d => d.name == name && !d.isReadOnly

/-- Only the definition of a name in another spelling can be that of exactly the name. -/
theorem writable?_of_sameName {key name : String} {a : Attribute} (hs : sameName name key = true)
    (hd : findAttribute? definitions key = some a) :
    writable? definitions name = if a.name = name ∧ a.isReadOnly = false then some a else none := by
  rw [writable?, findAttribute?_congr definitions hs, hd, Option.filter_some]
  simp

/-- In an object that passes, the last value of a name passes that clients may write. -/
theorem exists_checkValue_last {name : String} {v : Json}
    (h : checkPairs owner definitions ms = .ok pairs) (hd : writable? definitions name = some d)
    (hlast : lastValue? ms name = some v) : ∃ w, checkValue d v = .ok w := by
  obtain ⟨hfound, htest⟩ := Option.filter_eq_some_iff.mp hd
  rw [Bool.and_eq_true, Bool.not_eq_true'] at htest
  obtain ⟨m, hm, hsame, rfl, hnull⟩ := lastValue?_mem hlast
  obtain ⟨b, hb, hpass⟩ := exists_checkPairs.mp ⟨pairs, h⟩ m hm
  rw [← findAttribute?_congr definitions hsame, hfound] at hb
  obtain rfl := Option.some.inj hb
  simpa [htest.2, hnull] using hpass

/-- Under a canonical name a check leaves the last value of the name, in whatever spelling. -/
theorem get?_checkPairs (h : checkPairs owner definitions ms = .ok pairs) (name : String) :
    Members.get? pairs.reverse name = (writable? definitions name).bind fun d =>
      (lastValue? ms name).bind fun v => (checkValue d v).toOption := by
  induction ms generalizing pairs with
  | nil =>
    cases h
    cases writable? definitions name <;> rfl
  | cons m rest ih =>
    obtain ⟨key, v⟩ := m
    rw [checkPairs_cons] at h
    rw [lastValue?_cons]
    cases hd : findAttribute? definitions key with
    | none =>
      rw [hd] at h
      cases h
    | some a =>
      simp only [hd] at h
      split_ifs at h with hskip
      · rw [ih h]
        cases htest : sameName name key && !v.isNull with
        | false => simp
        | true =>
          rw [Bool.and_eq_true, Bool.not_eq_true'] at htest
          have hread : a.isReadOnly = true := by simpa [htest.2] using hskip
          simp [writable?_of_sameName htest.1 hd, hread]
      · obtain ⟨w, hw, h⟩ := bind_eq_ok.mp h
        obtain ⟨more, hmore, h⟩ := bind_eq_ok.mp h
        cases h
        rw [Bool.or_eq_true, not_or, Bool.not_eq_true, Bool.not_eq_true] at hskip
        rw [List.reverse_cons, get?_append, ih hmore]
        -- the value counts under its canonical name, where no later value of the name does
        by_cases hname : a.name = name
        · subst hname
          have hsame : sameName a.name key = true := findAttribute?_sameName hd
          have hself : writable? definitions a.name = some a := by
            rw [writable?_of_sameName hsame hd, if_pos ⟨rfl, hskip.1⟩]
          rw [hself]
          cases hlast : lastValue? rest a.name with
          | none => simp [Members.get?, hsame, hskip.2, hw, Except.toOption]
          | some u =>
            obtain ⟨u', hu⟩ := exists_checkValue_last hmore hself hlast
            simp [hu, Except.toOption]
        · have hlone : Members.get? [(a.name, w)] name = none := by simp [Members.get?, hname]
          rw [hlone, Option.or_none]
          cases hsame : sameName name key with
          | false => simp
          | true => simp [writable?_of_sameName hsame hd, hname]

/-- Objects of which the same names have the same last values are checked alike. -/
theorem checkMembers_agree {ms' : Members Json}
    (hpass : (∀ m ∈ ms, PassesCheck definitions m) ↔ ∀ m ∈ ms', PassesCheck definitions m)
    (hlast : ∀ name d, findAttribute? definitions name = some d → d.isReadOnly = false →
      lastValue? ms name = lastValue? ms' name) :
    Mirrors PatchFault.type id (checkMembers owner definitions (.obj ms))
      (checkMembers owner definitions (.obj ms')) := by
  have hchecked : (∃ pairs, checkPairs owner definitions ms = .ok pairs) ↔
      ∃ pairs, checkPairs owner definitions ms' = .ok pairs := by
    rw [exists_checkPairs, exists_checkPairs, hpass]
  change Mirrors _ id ((checkPairs owner definitions ms).map Members.ofList)
    ((checkPairs owner definitions ms').map Members.ofList)
  cases h : checkPairs owner definitions ms with
  | error e =>
    cases h' : checkPairs owner definitions ms' with
    | error e' =>
      have hinvalid := FailsInvalid.pairs owner definitions ms e h
      exact .error (hinvalid.trans (FailsInvalid.pairs owner definitions ms' e' h').symm)
    | ok pairs' =>
      obtain ⟨pairs, hpairs⟩ := hchecked.mpr ⟨pairs', h'⟩
      rw [h] at hpairs
      cases hpairs
  | ok pairs =>
    obtain ⟨pairs', h'⟩ := hchecked.mp ⟨pairs, h⟩
    rw [h']
    -- what a check leaves is in order, so it is determined by what is found under each name
    refine .of_ok (ext_get? (sorted_ofList pairs) (sorted_ofList pairs') fun name => ?_)
    rw [id_eq, get?_ofList_reverse, get?_ofList_reverse, get?_checkPairs h, get?_checkPairs h']
    refine Option.bind_congr fun d hd => ?_
    obtain ⟨hfound, htest⟩ := Option.filter_eq_some_iff.mp hd
    rw [Bool.and_eq_true, Bool.not_eq_true'] at htest
    rw [hlast name d hfound htest.2]

end

/-! ### Tests under names of either case -/

section

variable {owner : String} {definitions : List Attribute} {tests tests' : List (String × Json)}
  {given : Members Json} {p p' : String × Json} {name : String}

/-- Each of the tests is among the others, but for the case of its name. -/
def Among (tests tests' : List (String × Json)) : Prop :=
  ∀ p ∈ tests, ∃ p' ∈ tests', sameName p.1 p'.1 = true ∧ p'.2 = p.2

/-- What comes of a value that a filter asks for does not hang on the spelling of its name: no
client may write it, or no other value is there for the name, or a given value with a name in small
letters, which stand behind all others, comes after it. -/
inductive Decided (definitions : List Attribute) (tests : List (String × Json))
    (given : Members Json) (p : String × Json) : Prop where
  | readOnly {d : Attribute} (hd : findAttribute? definitions p.1 = some d)
      (hread : d.isReadOnly = true)
  | agreed (hall : ∀ m ∈ tests ++ given, sameName p.1 m.1 = true → m.2 = p.2)
  | outweighed {m : String × Json} (hp : PassesCheck definitions p) (hm : m ∈ given)
      (hs : sameName p.1 m.1 = true) (hsmall : foldCase m.1 = m.1.toList)
      (hnull : m.2.isNull = false)

theorem Among.append (h : Among tests tests') (given : Members Json) :
    Among (tests ++ given) (tests' ++ given) := by
  intro p hp
  rcases List.mem_append.mp hp with hp | hp
  · obtain ⟨p', hp', hsame⟩ := h p hp
    exact ⟨p', List.mem_append_left _ hp', hsame⟩
  · exact ⟨p, List.mem_append_right _ hp, sameName_refl _, rfl⟩

theorem Among.passes (h : Among tests tests') (hpass : ∀ p ∈ tests', PassesCheck definitions p) :
    ∀ p ∈ tests, PassesCheck definitions p := by
  intro p hp
  obtain ⟨p', hp', hs, hv⟩ := h p hp
  rw [sameName_comm] at hs
  exact (hpass p' hp').congr hs hv.symm

/-- Values that agree do so in every spelling of the tests. -/
theorem Among.agreed (hback : Among tests' tests) (hs : sameName p.1 p'.1 = true)
    (hv : p'.2 = p.2) (hall : ∀ m ∈ tests ++ given, sameName p.1 m.1 = true → m.2 = p.2) :
    ∀ m ∈ tests' ++ given, sameName p'.1 m.1 = true → m.2 = p'.2 := by
  intro m hm hm'
  obtain ⟨n, hn, hmn, hnv⟩ := hback.append given m hm
  rw [hv, ← hall n hn (sameName_trans (sameName_trans hs hm') hmn), hnv]

/-- A decided test is so in every spelling of the tests. -/
theorem Decided.respell (h : Decided definitions tests given p) (hback : Among tests' tests)
    (hs : sameName p.1 p'.1 = true) (hv : p'.2 = p.2) : Decided definitions tests' given p' := by
  cases h with
  | readOnly hd hread => exact .readOnly (findAttribute?_congr definitions hs ▸ hd) hread
  | agreed hall => exact .agreed (hback.agreed hs hv hall)
  | outweighed hp hm hm' hsmall hnull =>
    rw [sameName_comm] at hs
    exact .outweighed (hp.congr (sameName_comm _ _ ▸ hs) hv) hm (sameName_trans hs hm') hsmall hnull

/-- Where all tests are decided, an object passes with what overrides them as it would without. -/
theorem passesCheck_ofList (hg : Sorted given)
    (hd : ∀ p ∈ tests, Decided definitions tests given p) :
    (∀ m ∈ ofList (tests ++ given), PassesCheck definitions m) ↔
      ∀ m ∈ tests ++ given, PassesCheck definitions m := by
  refine ⟨fun h m hm => ?_, fun h m hm => h m (mem_of_mem_ofList hm)⟩
  rcases List.mem_append.mp hm with hp | hm
  · cases hd m hp with
    | readOnly hd hread => exact ⟨_, hd, .inl hread⟩
    | agreed hall =>
      -- the member under the name of the test may be another one, but has the same value
      obtain ⟨v, hv⟩ := exists_mem_ofList hm
      have hvalue : v = m.2 := hall _ (mem_of_mem_ofList hv) (sameName_refl _)
      exact (h _ hv).congr (sameName_refl _) hvalue.symm
    | outweighed hpass => exact hpass
  · exact h m (mem_ofList_append tests hg hm)

/-! The last value of a name in the object, by what decides the tests of that name. -/

theorem lastValue?_untested (hg : Sorted given) (hnone : ∀ p ∈ tests, sameName name p.1 = false) :
    lastValue? (ofList (tests ++ given)) name = lastValue? given name := by
  refine lastValue?_of_under (ext_mem (sorted_filter _ (sorted_ofList _)) (sorted_filter _ hg)
    fun m => ?_)
  rw [mem_under, mem_under]
  refine and_congr_left fun hs => ⟨fun hm => ?_, mem_ofList_append tests hg⟩
  refine (List.mem_append.mp (mem_of_mem_ofList hm)).resolve_left fun hp => ?_
  rw [hnone m hp] at hs
  cases hs

theorem lastValue?_agreed (hp : p ∈ tests) (hs : sameName name p.1 = true)
    (hall : ∀ m ∈ tests ++ given, sameName p.1 m.1 = true → m.2 = p.2) :
    lastValue? (ofList (tests ++ given)) name = if p.2.isNull then none else some p.2 := by
  obtain ⟨v, hv⟩ := exists_mem_ofList (List.mem_append_left given hp)
  refine lastValue?_of_all hv hs fun n hn hname => hall n (mem_of_mem_ofList hn) ?_
  rw [sameName_comm] at hs
  exact sameName_trans hs hname

theorem lastValue?_outweighed (hg : Sorted given) {m : String × Json} (hm : m ∈ given)
    (hs : sameName name m.1 = true) (hsmall : foldCase m.1 = m.1.toList)
    (hnull : m.2.isNull = false) : lastValue? (ofList (tests ++ given)) name = some m.2 := by
  refine lastValue?_of_greatest (sorted_ofList _) (mem_ofList_append tests hg hm) hs hnull
    fun n _ hname => le_of_sameName ?_ hsmall
  rw [sameName_comm] at hname
  exact sameName_trans hname hs

/-- Where all tests are decided, the object that a filter asks for is checked with the same result
in every spelling of the tests. -/
theorem checkMembers_tests (hl : Among tests tests') (hr : Among tests' tests)
    (hg : Sorted given) (hd : ∀ p ∈ tests, Decided definitions tests given p) :
    Mirrors PatchFault.type id (checkMembers owner definitions (.obj (ofList (tests ++ given))))
      (checkMembers owner definitions (.obj (ofList (tests' ++ given)))) := by
  have hd' : ∀ p' ∈ tests', Decided definitions tests' given p' := by
    intro p' hp'
    obtain ⟨p, hp, hs, hv⟩ := hr p' hp'
    rw [sameName_comm] at hs
    exact (hd p hp).respell hr hs hv.symm
  refine checkMembers_agree ?_ fun name d hfound hwritable => ?_
  · rw [passesCheck_ofList hg hd, passesCheck_ofList hg hd']
    exact ⟨(hr.append given).passes, (hl.append given).passes⟩
  -- a name that the filter tests has the value that decides this test, in either spelling
  by_cases htested : ∃ p ∈ tests, sameName name p.1 = true
  · obtain ⟨p, hp, hname⟩ := htested
    obtain ⟨p', hp', hs, hv⟩ := hl p hp
    have hname' := sameName_trans hname hs
    cases hd p hp with
    | readOnly hread hro =>
      rw [← findAttribute?_congr definitions hname, hfound] at hread
      obtain rfl := Option.some.inj hread
      rw [hwritable] at hro
      cases hro
    | agreed hall =>
      rw [lastValue?_agreed hp hname hall,
        lastValue?_agreed hp' hname' (hr.agreed hs hv hall), hv]
    | outweighed _ hm hpm hsmall hnull =>
      have hgiven := sameName_trans hname hpm
      rw [lastValue?_outweighed hg hm hgiven hsmall hnull,
        lastValue?_outweighed hg hm hgiven hsmall hnull]
  · have hnone : ∀ p ∈ tests, sameName name p.1 = false := by simpa using htested
    have hnone' : ∀ p' ∈ tests', sameName name p'.1 = false := by
      intro p' hp'
      obtain ⟨p, hp, hs, -⟩ := hr p' hp'
      exact not_same_of_same (hnone p hp) (sameName_comm _ _ ▸ hs)
    rw [lastValue?_untested hg hnone, lastValue?_untested hg hnone']

end

end Roster
