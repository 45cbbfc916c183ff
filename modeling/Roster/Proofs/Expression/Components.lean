import Roster.Proofs.Expression.Balanced
import Roster.Proofs.Success

/-!
The components of a path, read back from the text that joins them, and what is known of every text
that splits into components.
-/

namespace Roster

namespace Expression

/-! ### Cutting a text -/

theorem cut_append (xs ys zs : List Char) :
    cut (xs ++ (ys ++ zs)) (utf8Length xs) (utf8Length (xs ++ ys)) = .ok ys := by
  simp only [cut, slice?_append]

theorem cut_front (xs ys : List Char) : cut (xs ++ ys) 0 (utf8Length xs) = .ok xs :=
  cut_append [] xs ys

theorem cut_back (xs ys : List Char) :
    cut (xs ++ ys) (utf8Length xs) (utf8Length (xs ++ ys)) = .ok ys := by
  have h := cut_append xs ys []
  rwa [List.append_nil] at h

/-! ### One component -/

/-- The characters of a component. -/
def partText : String × Option String → List Char
  | (name, none) => name.toList
  | (name, some filter) => name.toList ++ '[' :: (filter.toList ++ [']'])

/-- A name, with balanced text in its brackets. -/
structure IsPart (p : String × Option String) : Prop where
  name : isAttributeName p.1.toList = true
  filter : ∀ text ∈ p.2, Balanced text.toList

/-- Where the bracket of a component opens, the component being found behind a text. -/
def bracketAt (before : List Char) (p : String × Option String) : Option Nat :=
  p.2.map fun _ => utf8Length (before ++ p.1.toList)

/-- A component that lies where it is said to lie is refused for its name alone. -/
theorem component_eq (p : String × Option String) (before after : List Char) (offset : Nat) :
    component (before ++ (partText p ++ after)) (utf8Length before)
      (utf8Length (before ++ partText p)) (bracketAt before p) offset =
      if p.1.toList.isEmpty then .error (malformed .emptySegment (offset + utf8Length before))
      else if !isAttributeName p.1.toList then
        .error (malformed (.segmentName p.1) (offset + utf8Length before))
      else .ok p := by
  obtain ⟨name, filter⟩ := p
  cases filter with
  | none =>
    have hname := cut_append before name.toList after
    simp only [component, bracketAt, Option.map_none, partText, hname, bind, Except.bind, pure,
      Except.pure, String.ofList_toList]
  | some filter =>
    have hname := cut_append before name.toList ('[' :: (filter.toList ++ ']' :: after))
    have hfilter := cut_append (before ++ name.toList ++ ['[']) filter.toList (']' :: after)
    have htext : before ++ (partText (name, some filter) ++ after) =
        before ++ (name.toList ++ '[' :: (filter.toList ++ ']' :: after)) := by
      simp [partText]
    -- the filter lies between the brackets, each of which is one byte long
    have hstart : utf8Length (before ++ name.toList) + 1 =
        utf8Length (before ++ name.toList ++ ['[']) := by
      simp only [utf8Length_append]
      rfl
    have hstop : utf8Length (before ++ partText (name, some filter)) - 1 =
        utf8Length (before ++ name.toList ++ ['['] ++ filter.toList) := by
      have hclosing : ']'.utf8Size = 1 := rfl
      simp only [partText, utf8Length_append, utf8Length_cons, utf8Length_nil, hclosing]
      omega
    have hjoin : before ++ name.toList ++ ['['] ++ (filter.toList ++ ']' :: after) =
        before ++ (name.toList ++ '[' :: (filter.toList ++ ']' :: after)) := by
      simp
    rw [hjoin] at hfilter
    simp only [component, bracketAt, Option.map_some, htext, hname, hstart, hstop, hfilter, bind,
      Except.bind, pure, Except.pure, String.ofList_toList]

theorem component_part {p : String × Option String} (hp : isAttributeName p.1.toList = true)
    (before after : List Char) (offset : Nat) :
    component (before ++ (partText p ++ after)) (utf8Length before)
      (utf8Length (before ++ partText p)) (bracketAt before p) offset = .ok p := by
  have hempty : p.1.toList.isEmpty = false :=
    List.isEmpty_eq_false_iff.mpr (Filter.ne_nil_of_isAttributeName hp)
  rw [component_eq]
  simp [hempty, hp]

/-! ### Splitting -/

/-- The state at the start of a component. -/
def Splitter.fresh (before : List Char) (parts : List (String × Option String)) : Splitter :=
  ⟨utf8Length before, 0, false, false, utf8Length before, none, false, parts⟩

variable (text : List Char) (offset : Nat)

theorem scan_name {cs : List Char} (hcs : ∀ c ∈ cs, isMark c = false ∧ c ≠ '.') {s : Splitter}
    (hd : s.depth = 0) (hq : s.quoted = false) (hc : s.closed = false) :
    cs.foldlM (Splitter.step text offset) s = .ok (s.shifted cs) := by
  induction cs generalizing s with
  | nil => rfl
  | cons c cs ih =>
    have hmark := (hcs c List.mem_cons_self).1
    have hdot := (hcs c List.mem_cons_self).2
    simp only [isMark, Bool.or_eq_false_iff, beq_eq_false_iff_ne] at hmark
    have hstep : Splitter.step text offset s c = .ok (s.shifted [c]) := by
      simp [Splitter.step, hd, hq, hc, hmark, hdot, Splitter.shifted, bind, Except.bind]
    have hrest : ∀ d ∈ cs, isMark d = false ∧ d ≠ '.' :=
      fun d hd => hcs d (List.mem_cons_of_mem c hd)
    rw [scan_cons hstep, ih (s := s.shifted [c]) hrest hd hq hc, Splitter.shifted_shifted]
    rfl

theorem name_plain {name : List Char} (h : isAttributeName name = true) :
    ∀ c ∈ name, isMark c = false ∧ c ≠ '.' := by
  intro c hc
  have hq := List.all_eq_true.mp (Filter.isAttributeName_qualified h) c hc
  refine ⟨isMark_of_isQualifiedChar hq, ?_⟩
  rintro rfl
  exact Filter.not_mem_of_isAttributeName h rfl hc

/-- The state inside the brackets behind a name. -/
def Splitter.bracketed (before name : List Char) (parts : List (String × Option String)) :
    Splitter :=
  ⟨utf8Length (before ++ name) + 1, 1, false, false, utf8Length before,
    some (utf8Length (before ++ name)), false, parts⟩

/-- The state at the end of a component. -/
def Splitter.behind (before : List Char) (p : String × Option String)
    (parts : List (String × Option String)) : Splitter :=
  ⟨utf8Length (before ++ partText p), 0, false, false, utf8Length before, bracketAt before p,
    p.2.isSome, parts⟩

theorem scan_part {p : String × Option String} (hp : IsPart p) (before : List Char)
    (parts : List (String × Option String)) :
    (partText p).foldlM (Splitter.step text offset) (.fresh before parts) =
      .ok (.behind before p parts) := by
  have hname := scan_name text offset (name_plain hp.name) (s := .fresh before parts) rfl rfl rfl
  obtain ⟨name, filter⟩ := p
  cases filter with
  | none =>
    simp only [partText, hname, Splitter.behind, bracketAt]
    simp [Splitter.shifted, Splitter.fresh]
  | some filter =>
    have hopen : Splitter.step text offset ((Splitter.fresh before parts).shifted name.toList) '[' =
        .ok (.bracketed before name.toList parts) := by
      have hopening : '['.utf8Size = 1 := rfl
      simp [Splitter.step, Splitter.fresh, Splitter.shifted, Splitter.bracketed, hopening, bind,
        Except.bind]
    have hinner : filter.toList.foldlM (Splitter.step text offset)
        (.bracketed before name.toList parts) =
        .ok ((Splitter.bracketed before name.toList parts).shifted filter.toList) :=
      (hp.filter filter rfl).scan_splitter ⟨Nat.one_ne_zero, rfl, rfl⟩
    have hclosing : ']'.utf8Size = 1 := rfl
    have hopening : '['.utf8Size = 1 := rfl
    rw [partText, scan_append hname, scan_cons hopen, scan_append hinner]
    simp [Splitter.step, Splitter.shifted, Splitter.bracketed, Splitter.behind, partText, bracketAt,
      hclosing, hopening, bind, Except.bind, pure, Except.pure]
    omega

/-- The characters of components joined by dots. -/
def joinParts : List (String × Option String) → List Char
  | [] => []
  | [p] => partText p
  | p :: q :: rest => partText p ++ '.' :: joinParts (q :: rest)

/-- The components found when a scan ends. -/
def lastPart (s : Splitter) : Except ExpressionError (List (String × Option String)) := do
  let last ← component text s.start s.position s.bracket offset
  .ok (last :: s.parts).reverse

theorem scan_joinParts {ps : List (String × Option String)} (hne : ps ≠ [])
    (hps : ∀ p ∈ ps, IsPart p) (before : List Char) (parts : List (String × Option String))
    (htext : text = before ++ joinParts ps) :
    ((joinParts ps).foldlM (Splitter.step text offset) (.fresh before parts)).bind
      (lastPart text offset) = .ok (parts.reverse ++ ps) := by
  induction ps generalizing before parts with
  | nil => exact absurd rfl hne
  | cons p ps ih =>
    have hp := hps p List.mem_cons_self
    have hscan := scan_part text offset hp before parts
    cases ps with
    | nil =>
      have hpart := component_part hp.name before [] offset
      rw [List.append_nil] at hpart
      rw [joinParts] at htext ⊢
      rw [hscan, htext]
      simp only [lastPart, Splitter.behind, hpart, bind, Except.bind]
      simp
    | cons q ps =>
      have hpart := component_part hp.name before ('.' :: joinParts (q :: ps)) offset
      have htext' : text = before ++ (partText p ++ '.' :: joinParts (q :: ps)) := htext
      rw [← htext'] at hpart
      have hpoint : '.'.utf8Size = 1 := rfl
      -- the dot checks the component and the scan starts afresh behind it
      have hdot : Splitter.step text offset (.behind before p parts) '.' =
          .ok (.fresh (before ++ partText p ++ ['.']) (p :: parts)) := by
        simp only [Splitter.step, Splitter.behind, hpart, bind, Except.bind, pure, Except.pure]
        simp [Splitter.fresh, hpoint, Nat.add_assoc]
      rw [joinParts, scan_append hscan, scan_cons hdot]
      have hrest := ih (by simp) (fun r hr => hps r (List.mem_cons_of_mem p hr))
        (before ++ partText p ++ ['.']) (p :: parts) (by simp [htext'])
      simpa using hrest

theorem components_joinParts (ps : List (String × Option String)) (hne : ps ≠ [])
    (hps : ∀ p ∈ ps, IsPart p) : components (joinParts ps) offset = .ok ps :=
  scan_joinParts (joinParts ps) offset hne hps [] [] rfl

/-! ### Texts that split -/

theorem component_name {text : List Char} {start stop offset : Nat} {bracket : Option Nat}
    {p : String × Option String} (h : component text start stop bracket offset = .ok p) :
    isAttributeName p.1.toList = true := by
  have checked {name : List Char} {filter : Option String}
      (h : (if name.isEmpty then .error (malformed .emptySegment (offset + start))
        else if !isAttributeName name then
          .error (malformed (.segmentName (String.ofList name)) (offset + start))
        else .ok (String.ofList name, filter) : Except ExpressionError _) = .ok p) :
      isAttributeName p.1.toList = true := by
    obtain ⟨-, h⟩ := guard_eq_ok.mp h
    obtain ⟨hname, h⟩ := guard_eq_ok.mp h
    cases h
    simpa using hname
  cases bracket with
  | none =>
    simp only [component, pure_bind] at h
    obtain ⟨name, -, h⟩ := bind_eq_ok.mp h
    exact checked h
  | some opened =>
    simp only [component, pure_bind] at h
    obtain ⟨name, -, h⟩ := bind_eq_ok.mp h
    obtain ⟨filter, -, h⟩ := bind_eq_ok.mp h
    exact checked h

/-- What every step of a scan keeps holds at its end. -/
theorem scan_keeps {σ ε α : Type} {step : σ → α → Except ε σ} {p : σ → Prop}
    (hstep : ∀ s x t, p s → step s x = .ok t → p t) {xs : List α} {s t : σ} (hs : p s)
    (h : xs.foldlM step s = .ok t) : p t := by
  induction xs generalizing s with
  | nil =>
    cases h
    exact hs
  | cons x xs ih =>
    rw [List.foldlM_cons] at h
    obtain ⟨next, hnext, h⟩ := bind_eq_ok.mp h
    exact ih (hstep s x next hs hnext) h

theorem step_names {text : List Char} {offset : Nat} {s t : Splitter} {c : Char}
    (hs : ∀ p ∈ s.parts, isAttributeName p.1.toList = true)
    (h : Splitter.step text offset s c = .ok t) :
    ∀ p ∈ t.parts, isAttributeName p.1.toList = true := by
  simp only [Splitter.step] at h
  split at h
  · repeat' split at h
    all_goals
      cases h
      exact hs
  · split at h
    · obtain ⟨part, hpart, h⟩ := bind_eq_ok.mp h
      cases h
      intro p hp
      rcases List.mem_cons.mp hp with rfl | hp
      · exact component_name hpart
      · exact hs p hp
    · repeat' split at h
      all_goals
        cases h
        try exact hs

/-- A text splits into at least one component, and each has the name of an attribute. -/
theorem components_names {text : List Char} {offset : Nat} {parts : List (String × Option String)}
    (h : components text offset = .ok parts) :
    parts ≠ [] ∧ ∀ p ∈ parts, isAttributeName p.1.toList = true := by
  unfold components at h
  obtain ⟨s, hscan, h⟩ := bind_eq_ok.mp h
  obtain ⟨last, hlast, h⟩ := bind_eq_ok.mp h
  cases h
  have hnames := scan_keeps (fun _ _ _ => step_names) (by simp) hscan
  refine ⟨by simp, fun p hp => ?_⟩
  rcases List.mem_cons.mp (List.mem_reverse.mp hp) with rfl | hp
  · exact component_name hlast
  · exact hnames p hp

theorem component_word {before word after : List Char} {offset : Nat}
    {p : String × Option String}
    (h : component (before ++ (word ++ after)) (utf8Length before)
      (utf8Length before + utf8Length word) none offset = .ok p) :
    isAttributeName word = true := by
  have hname := component_name h
  rw [← utf8Length_append] at h
  simp only [component, cut_append, bind, Except.bind, pure, Except.pure] at h
  obtain ⟨-, h⟩ := guard_eq_ok.mp h
  obtain ⟨-, h⟩ := guard_eq_ok.mp h
  cases h
  simpa using hname

/-- Where nothing is in brackets, a colon would be part of a name. -/
theorem scan_colon (text : List Char) (offset : Nat) (before word : List Char) {rest : List Char}
    {parts out : List (String × Option String)} (hrest : rest.all Filter.isQualifiedChar = true)
    (htext : text = before ++ (word ++ rest))
    (h : rest.foldlM (Splitter.step text offset) ((Splitter.fresh before parts).shifted word) >>=
      lastPart text offset = .ok out) : ':' ∉ word ++ rest := by
  induction rest generalizing before word parts with
  | nil =>
    obtain ⟨s, hs, h⟩ := bind_eq_ok.mp h
    cases hs
    obtain ⟨part, hpart, -⟩ := bind_eq_ok.mp h
    rw [List.append_nil]
    exact Filter.not_mem_of_isAttributeName (component_word (htext ▸ hpart)) rfl
  | cons c rest ih =>
    rw [List.all_cons, Bool.and_eq_true] at hrest
    obtain ⟨last, hlast, h⟩ := bind_eq_ok.mp h
    rw [List.foldlM_cons] at hlast
    obtain ⟨next, hnext, hlast⟩ := bind_eq_ok.mp hlast
    have hjoin := bind_eq_ok.mpr ⟨last, hlast, h⟩
    by_cases hc : c = '.'
    · -- the dot ends a word, which is checked there
      subst hc
      obtain ⟨part, hpart, hfresh⟩ : ∃ part, component text (utf8Length before)
          (utf8Length before + utf8Length word) none offset = .ok part ∧
          next = .fresh (before ++ word ++ ['.']) (part :: parts) := by
        have hpoint : '.'.utf8Size = 1 := rfl
        simp only [Splitter.step, Splitter.shifted, Splitter.fresh] at hnext
        obtain ⟨part, hpart, hnext⟩ := bind_eq_ok.mp hnext
        cases hnext
        exact ⟨part, hpart, by simp [Splitter.fresh, hpoint, Nat.add_assoc]⟩
      have hname := component_word (htext ▸ hpart)
      have hword := Filter.not_mem_of_isAttributeName hname (c := ':') rfl
      have hrest' := ih (before ++ word ++ ['.']) [] hrest.2 (by simp [htext]) (hfresh ▸ hjoin)
      simpa [hword] using hrest'
    · have hmark := isMark_of_isQualifiedChar hrest.1
      have hstep : [c].foldlM (Splitter.step text offset)
          ((Splitter.fresh before parts).shifted word) =
          .ok (((Splitter.fresh before parts).shifted word).shifted [c]) :=
        scan_name text offset (by simpa using ⟨hmark, hc⟩) rfl rfl rfl
      rw [Splitter.shifted_shifted] at hstep
      obtain ⟨moved, hmoved, hdone⟩ := bind_eq_ok.mp hstep
      cases hdone
      cases hnext.symm.trans hmoved
      have hrest' := ih before (word ++ [c]) hrest.2 (by simp [htext]) hjoin
      simpa using hrest'

theorem components_colon {text : List Char} {offset : Nat} {parts : List (String × Option String)}
    (hq : text.all Filter.isQualifiedChar = true) (h : components text offset = .ok parts) :
    ':' ∉ text :=
  scan_colon text offset [] [] hq rfl h

end Expression

end Roster
