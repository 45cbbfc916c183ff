import Mathlib.Data.List.Infix
import Mathlib.Tactic.SplitIfs
import Roster.Proofs.Text.Lowercase
import Roster.Query.Value

/-!
Parts of texts in lower case. Only a capital sigma is lowered by what stands around it: to the final
form behind a letter and in front of none. So a part of a text is lowered as it is by itself, except
where it has such a sigma at an end, and letters stand beyond that end.
-/

namespace Roster

/-- The lower case of a character behind a reversed text and in front of another. -/
def lowerAt (before : List Char) (c : Char) (rest : List Char) : List Char :=
  if c.toNat == 0x3A3 then
    if facesCased before && !facesCased rest then [Char.ofNat 0x3C2] else [Char.ofNat 0x3C3]
  else lowerChar c

/-- The lower case of a text behind a reversed text and in front of another. -/
def lowerWithin (before after : List Char) : List Char → List Char
  | [] => []
  | c :: rest => lowerAt before c (rest ++ after) ++ lowerWithin (c :: before) after rest

theorem lowerAfter_cons (before : List Char) (c : Char) (rest : List Char) :
    lowerAfter before (c :: rest) = lowerAt before c rest ++ lowerAfter (c :: before) rest := rfl

theorem lowerAfter_append (before xs ys : List Char) : lowerAfter before (xs ++ ys) =
    lowerWithin before ys xs ++ lowerAfter (xs.reverse ++ before) ys := by
  induction xs generalizing before with
  | nil => rfl
  | cons c xs ih =>
    rw [List.cons_append, lowerAfter_cons, ih, lowerWithin, List.append_assoc, List.reverse_cons,
      List.append_assoc, List.singleton_append]

theorem lowerWithin_nil (before cs : List Char) :
    lowerWithin before [] cs = lowerAfter before cs := by
  induction cs generalizing before with
  | nil => rfl
  | cons c cs ih => rw [lowerWithin, lowerAfter_cons, ih, List.append_nil]

/-! ### What stands around a sigma -/

/-- Past characters that case ignores, what counts is behind them. -/
theorem facesCased_append {cs : List Char} (h : ∀ c ∈ cs, isCaseIgnorable c = true)
    (rest : List Char) : facesCased (cs ++ rest) = facesCased rest := by
  rw [facesCased, List.dropWhile_append_of_pos h]
  rfl

theorem facesCased_ignorable {cs : List Char} (h : ∀ c ∈ cs, isCaseIgnorable c = true) :
    facesCased cs = false := by
  rw [← List.append_nil cs, facesCased_append h]
  rfl

/-- Any other character decides what counts. -/
theorem facesCased_append_of_not {cs : List Char} (h : ¬∀ c ∈ cs, isCaseIgnorable c = true)
    (rest : List Char) : facesCased (cs ++ rest) = facesCased cs := by
  induction cs with
  | nil => simp at h
  | cons c cs ih =>
    simp only [facesCased, List.cons_append, List.dropWhile_cons] at ih ⊢
    cases hc : isCaseIgnorable c with
    | true => exact ih fun hcs => h (List.forall_mem_cons.mpr ⟨hc, hcs⟩)
    | false => rfl

/-- The lower case of a character has one length, whatever is around it. -/
theorem lowerAt_length (before before' : List Char) (c : Char) (rest rest' : List Char) :
    (lowerAt before c rest).length = (lowerAt before' c rest').length := by
  simp only [lowerAt]
  split_ifs <;> rfl

theorem lowerWithin_length (before before' after after' cs : List Char) :
    (lowerWithin before after cs).length = (lowerWithin before' after' cs).length := by
  induction cs generalizing before before' with
  | nil => rfl
  | cons c cs ih =>
    rw [lowerWithin, lowerWithin, List.length_append, List.length_append, ih _ (c :: before'),
      lowerAt_length before before' c _ (cs ++ after')]

theorem lowerAfter_length (before before' cs : List Char) :
    (lowerAfter before cs).length = (lowerAfter before' cs).length := by
  rw [← lowerWithin_nil, ← lowerWithin_nil, lowerWithin_length]

/-- Whether a text, behind another, has a capital sigma that ends a word, with nothing behind it
but what case ignores. -/
def endsFinal (before : List Char) : List Char → Bool
  | [] => false
  | c :: rest =>
    (c.toNat == 0x3A3 && facesCased before && rest.all isCaseIgnorable) ||
      endsFinal (c :: before) rest

/-- Whether the first character of a text, but for what case ignores, is a capital sigma that no
letter follows. -/
def beginsLone : List Char → Bool
  | [] => false
  | c :: rest =>
    if isCaseIgnorable c then beginsLone rest else c.toNat == 0x3A3 && !facesCased rest

theorem isCaseIgnorable_sigma {c : Char} (h : (c.toNat == 0x3A3) = true) :
    isCaseIgnorable c = false := by
  rw [beq_iff_eq] at h
  rw [show c = Char.ofNat 0x3A3 by rw [← h, Char.ofNat_toNat]]
  decide +kernel

/-- A character is lowered the same in front of two texts unless it is a sigma behind a letter, and
only one of the texts goes on with a letter. -/
theorem lowerAt_rest {before rest rest' : List Char} {c : Char} :
    lowerAt before c rest = lowerAt before c rest' ↔
      ¬((c.toNat == 0x3A3) = true ∧ facesCased before = true ∧
        facesCased rest ≠ facesCased rest') := by
  have hforms : [Char.ofNat 0x3C3] ≠ [Char.ofNat 0x3C2] := by decide
  simp only [lowerAt]
  cases c.toNat == 0x3A3 <;> cases facesCased before <;> cases facesCased rest <;>
    cases facesCased rest' <;> simp [hforms]

/-- The same of two texts behind which it stands. -/
theorem lowerAt_before {before before' rest : List Char} {c : Char} :
    lowerAt before c rest = lowerAt before' c rest ↔
      ¬((c.toNat == 0x3A3) = true ∧ facesCased rest = false ∧
        facesCased before ≠ facesCased before') := by
  have hforms : [Char.ofNat 0x3C3] ≠ [Char.ofNat 0x3C2] := by decide
  simp only [lowerAt]
  cases c.toNat == 0x3A3 <;> cases facesCased before <;> cases facesCased before' <;>
    cases facesCased rest <;> simp [hforms]

/-! ### A text in front of another -/

theorem lowerWithin_cons_iff {before after cs : List Char} {c : Char} :
    lowerWithin before after (c :: cs) = lowerAfter before (c :: cs) ↔
      lowerAt before c (cs ++ after) = lowerAt before c cs ∧
        lowerWithin (c :: before) after cs = lowerAfter (c :: before) cs := by
  rw [lowerWithin, lowerAfter_cons]
  constructor
  · exact fun h => List.append_inj h (lowerAt_length ..)
  · rintro ⟨hfirst, hrest⟩
    rw [hfirst, hrest]

/-- In front of another text, a text is lowered as by itself, unless it ends in a final sigma and a
letter comes next. -/
theorem lowerWithin_eq_iff {before cs after : List Char} :
    lowerWithin before after cs = lowerAfter before cs ↔
      ¬(endsFinal before cs = true ∧ facesCased after = true) := by
  induction cs generalizing before with
  | nil => simp [lowerWithin, lowerAfter, endsFinal]
  | cons c cs ih =>
    rw [lowerWithin_cons_iff, ih, lowerAt_rest, endsFinal]
    -- the text that follows is seen only past characters that case ignores
    by_cases hall : ∀ d ∈ cs, isCaseIgnorable d = true
    · have hcs : cs.all isCaseIgnorable = true := List.all_eq_true.mpr hall
      rw [facesCased_append hall, facesCased_ignorable hall, hcs]
      cases c.toNat == 0x3A3 <;> cases facesCased before <;> cases facesCased after <;>
        simp
    · have hcs : cs.all isCaseIgnorable = false := by
        rw [Bool.eq_false_iff, ne_eq, List.all_eq_true]
        exact hall
      rw [facesCased_append_of_not hall, hcs]
      simp

/-- Where it is not, there are fewer final sigmas. -/
theorem lowerWithin_final (before cs after : List Char) :
    lowerWithin before after cs = lowerAfter before cs ∨
      (lowerWithin before after cs).count (Char.ofNat 0x3C2) <
        (lowerAfter before cs).count (Char.ofNat 0x3C2) := by
  induction cs generalizing before with
  | nil => exact .inl rfl
  | cons c cs ih =>
    have hfirst : lowerAt before c (cs ++ after) = lowerAt before c cs ∨
        (lowerAt before c (cs ++ after)).count (Char.ofNat 0x3C2) <
          (lowerAt before c cs).count (Char.ofNat 0x3C2) := by
      by_cases hall : ∀ d ∈ cs, isCaseIgnorable d = true
      · rw [lowerAt, lowerAt, facesCased_append hall, facesCased_ignorable hall]
        cases c.toNat == 0x3A3 with
        | false => exact .inl rfl
        | true =>
          rw [if_pos rfl, if_pos rfl]
          cases facesCased before <;> cases facesCased after <;> decide
      · exact .inl (lowerAt_rest.mpr (by simp [facesCased_append_of_not hall]))
    rw [lowerWithin_cons_iff, lowerWithin, lowerAfter_cons, List.count_append, List.count_append]
    rcases hfirst with hfirst | hfirst <;> rcases ih (c :: before) with hrest | hrest
    · exact .inl ⟨hfirst, hrest⟩
    · rw [hfirst]
      exact .inr (by omega)
    · rw [hrest]
      exact .inr (by omega)
    · exact .inr (by omega)

/-! ### A text behind another -/

theorem lowerAfter_cons_iff {before before' cs : List Char} {c : Char} :
    lowerAfter before (c :: cs) = lowerAfter before' (c :: cs) ↔
      lowerAt before c cs = lowerAt before' c cs ∧
        lowerAfter (c :: before) cs = lowerAfter (c :: before') cs := by
  rw [lowerAfter_cons, lowerAfter_cons]
  constructor
  · exact fun h => List.append_inj h (lowerAt_length ..)
  · rintro ⟨hfirst, hrest⟩
    rw [hfirst, hrest]

/-- Behind another text, a text is lowered as by itself, unless it begins with a lone sigma and a
letter stands before. -/
theorem lowerAfter_eq_iff {before front cs : List Char} :
    lowerAfter (front ++ before) cs = lowerAfter front cs ↔
      ¬((∀ c ∈ front, isCaseIgnorable c = true) ∧ beginsLone cs = true ∧
        facesCased before = true) := by
  induction cs generalizing front with
  | nil => simp [lowerAfter, beginsLone]
  | cons c cs ih =>
    rw [lowerAfter_cons_iff, ← List.cons_append, ih, lowerAt_before, List.forall_mem_cons,
      beginsLone]
    by_cases hall : ∀ d ∈ front, isCaseIgnorable d = true
    · rw [facesCased_append hall, facesCased_ignorable hall]
      cases hc : isCaseIgnorable c with
      | true =>
        have hsigma : (c.toNat == 0x3A3) = false := by
          rw [Bool.eq_false_iff]
          intro hsigma
          rw [isCaseIgnorable_sigma hsigma] at hc
          cases hc
        simp [hsigma]
      | false =>
        have hfront : (∀ d ∈ front, isCaseIgnorable d = true) ↔ True := iff_true_intro hall
        cases c.toNat == 0x3A3 <;> cases facesCased cs <;> cases facesCased before <;>
          simp [hfront]
    · rw [facesCased_append_of_not hall]
      simp [hall]

/-- Where it is not, there are fewer sigmas inside. -/
theorem lowerAfter_inner (before front cs : List Char) :
    lowerAfter (front ++ before) cs = lowerAfter front cs ∨
      (lowerAfter (front ++ before) cs).count (Char.ofNat 0x3C3) <
        (lowerAfter front cs).count (Char.ofNat 0x3C3) := by
  induction cs generalizing front with
  | nil => exact .inl rfl
  | cons c cs ih =>
    have hfirst : lowerAt (front ++ before) c cs = lowerAt front c cs ∨
        (lowerAt (front ++ before) c cs).count (Char.ofNat 0x3C3) <
          (lowerAt front c cs).count (Char.ofNat 0x3C3) := by
      by_cases hall : ∀ d ∈ front, isCaseIgnorable d = true
      · rw [lowerAt, lowerAt, facesCased_append hall, facesCased_ignorable hall]
        cases c.toNat == 0x3A3 with
        | false => exact .inl rfl
        | true =>
          rw [if_pos rfl, if_pos rfl]
          cases facesCased before <;> cases facesCased cs <;> decide
      · exact .inl (lowerAt_before.mpr (by simp [facesCased_append_of_not hall]))
    rw [lowerAfter_cons_iff, lowerAfter_cons, lowerAfter_cons, List.count_append,
      List.count_append]
    rcases hfirst with hfirst | hfirst <;> rcases ih (c :: front) with hrest | hrest
    · exact .inl ⟨hfirst, hrest⟩
    · rw [hfirst]
      exact .inr (by simpa using hrest)
    · rw [List.cons_append] at hrest
      rw [hrest]
      exact .inr (by omega)
    · rw [List.cons_append] at hrest
      exact .inr (by omega)

/-- A sigma that is final behind another text is so by itself, unless it is a lone one. -/
theorem endsFinal_behind {before front cs : List Char} (h : endsFinal (front ++ before) cs = true) :
    endsFinal front cs = true ∨
      (∀ c ∈ front, isCaseIgnorable c = true) ∧ beginsLone cs = true := by
  induction cs generalizing front with
  | nil => cases h
  | cons c cs ih =>
    simp only [endsFinal, Bool.or_eq_true, Bool.and_eq_true] at h ⊢
    rcases h with ⟨⟨hsigma, hbefore⟩, hcs⟩ | hlater
    · by_cases hall : ∀ d ∈ front, isCaseIgnorable d = true
      · have hnone := facesCased_ignorable (List.all_eq_true.mp hcs)
        exact .inr ⟨hall, by simp [beginsLone, isCaseIgnorable_sigma hsigma, hsigma, hnone]⟩
      · rw [facesCased_append_of_not hall] at hbefore
        exact .inl (.inl ⟨⟨hsigma, hbefore⟩, hcs⟩)
    · have hbehind : endsFinal ((c :: front) ++ before) cs = true := hlater
      rcases ih hbehind with hfinal | ⟨hall, hlone⟩
      · exact .inl (.inr hfinal)
      · obtain ⟨hc, hfront⟩ := List.forall_mem_cons.mp hall
        exact .inr ⟨hfront, by rw [beginsLone, if_pos hc, hlone]⟩

/-! ### Parts in lower case -/

theorem lowercase_prefix_iff {cs after : List Char} : lowercase cs <+: lowercase (cs ++ after) ↔
    ¬(endsFinal [] cs = true ∧ facesCased after = true) := by
  rw [lowercase, lowercase, lowerAfter_append, ← lowerWithin_eq_iff]
  constructor
  · intro h
    rw [List.prefix_iff_eq_take, ← lowerWithin_nil,
      List.take_left' (lowerWithin_length ..), lowerWithin_nil] at h
    exact h.symm
  · intro h
    rw [h]
    exact List.prefix_append _ _

theorem lowercase_suffix_iff {before cs : List Char} :
    lowercase cs <:+ lowercase (before ++ cs) ↔
      ¬(beginsLone cs = true ∧ facesCased before.reverse = true) := by
  have hsame : lowerAfter before.reverse cs = lowerAfter [] cs ↔
      ¬(beginsLone cs = true ∧ facesCased before.reverse = true) := by
    have hiff : lowerAfter ([] ++ before.reverse) cs = lowerAfter [] cs ↔ _ := lowerAfter_eq_iff
    simpa using hiff
  rw [lowercase, lowercase, lowerAfter_append, List.append_nil, ← hsame]
  constructor
  · intro h
    obtain ⟨front, hfront⟩ := h
    exact (List.append_inj_right' hfront (lowerAfter_length ..)).symm
  · intro h
    rw [h]
    exact List.suffix_append _ _

/-- A text without a final sigma at its end and without a lone one at its beginning keeps its place
inside every text. -/
theorem lowercase_infix {cs text : List Char} (hfinal : endsFinal [] cs = false)
    (hlone : beginsLone cs = false) (h : cs <:+: text) : lowercase cs <:+: lowercase text := by
  obtain ⟨before, after, rfl⟩ := h
  have hbehind : lowerAfter ([] ++ before.reverse) cs = lowerAfter [] cs :=
    lowerAfter_eq_iff.mpr (by simp [hlone])
  have hends : ¬endsFinal before.reverse cs = true := by
    intro hends
    have hown : endsFinal ([] ++ before.reverse) cs = true := hends
    rcases endsFinal_behind hown with hown | ⟨-, hown⟩
    · rw [hfinal] at hown
      cases hown
    · rw [hlone] at hown
      cases hown
  have hwithin : lowerWithin before.reverse after cs = lowercase cs :=
    (lowerWithin_eq_iff.mpr fun h => hends h.1).trans hbehind
  rw [List.append_assoc, lowercase.eq_def (before ++ _), lowerAfter_append, lowerAfter_append,
    List.append_nil, hwithin, ← List.append_assoc]
  exact List.infix_append _ _ _

/-- Otherwise it is lost in front of a letter, or behind one. -/
theorem lowercase_not_infix {cs : List Char}
    (h : (endsFinal [] cs || beginsLone cs) = true) :
    ∃ text, cs <:+: text ∧ ¬lowercase cs <:+: lowercase text := by
  have hletter : facesCased ['a'] = true := by decide +kernel
  -- a letter at that end leaves too few of the sigmas, so that no other place can hold the part
  rcases Bool.or_eq_true_iff.mp h with hfinal | hlone
  · refine ⟨cs ++ ['a'], (List.prefix_append _ _).isInfix, fun hinfix => ?_⟩
    have hcount := hinfix.sublist.count_le (Char.ofNat 0x3C2)
    have hlast : (lowerAfter (cs.reverse ++ []) ['a']).count (Char.ofNat 0x3C2) = 0 := rfl
    rw [lowercase, lowercase, lowerAfter_append, List.count_append, hlast] at hcount
    rcases lowerWithin_final [] cs ['a'] with hsame | hless
    · exact lowerWithin_eq_iff.mp hsame ⟨hfinal, hletter⟩
    · omega
  · refine ⟨'a' :: cs, (List.suffix_cons _ _).isInfix, fun hinfix => ?_⟩
    have hcount := hinfix.sublist.count_le (Char.ofNat 0x3C3)
    have hsplit : lowercase ('a' :: cs) = 'a' :: lowerAfter ([] ++ ['a']) cs := rfl
    rw [hsplit, List.count_cons_of_ne (by decide), lowercase] at hcount
    rcases lowerAfter_inner ['a'] [] cs with hsame | hless
    · exact lowerAfter_eq_iff.mp hsame ⟨by simp, hlone, hletter⟩
    · omega

/-! ### Operators that look for a text -/

theorem CompareOp.admits_eq_orderText {a b : List Char} :
    CompareOp.eq.admits (orderText a b) = true ↔ a = b := by
  rw [orderText, admits]
  split_ifs with heq
  · simp [heq]
  · simp [heq]
  · simp [heq]

theorem occursIn_iff {t s : List Char} : occursIn t s = true ↔ t <:+: s := by
  induction s with
  | nil => simp [occursIn]
  | cons c cs ih =>
    rw [occursIn, Bool.or_eq_true, ih, List.infix_cons_iff, List.isPrefixOf_iff_prefix]

/-- Whether a text loses matches of an operator when case is ignored. -/
def CompareOp.losesCase (op : CompareOp) (t : List Char) : Bool :=
  match op with
  | .co => endsFinal [] t || beginsLone t
  | .sw => endsFinal [] t
  | .ew => beginsLone t
  | _ => false

/-- Ignoring case keeps what matches exactly, but for texts that lose matches. -/
theorem CompareOp.matchesPart_lowercase {op : CompareOp} (hop : op.isSubstring = true)
    {t : List Char} : (∀ s, op.matchesPart s t = true →
      op.matchesPart (lowercase s) (lowercase t) = true) ↔ op.losesCase t = false := by
  cases op with
  | co =>
    simp only [matchesPart, occursIn_iff, losesCase]
    constructor
    · intro hkeeps
      rw [Bool.eq_false_iff]
      intro hloses
      obtain ⟨text, hinfix, hnot⟩ := lowercase_not_infix hloses
      exact hnot (hkeeps text hinfix)
    · intro hnone s
      rw [Bool.or_eq_false_iff] at hnone
      exact lowercase_infix hnone.1 hnone.2
  | sw =>
    simp only [matchesPart, List.isPrefixOf_iff_prefix, losesCase]
    constructor
    · intro hkeeps
      have hprefix := lowercase_prefix_iff.mp (hkeeps (t ++ ['a']) (List.prefix_append _ _))
      exact Bool.eq_false_iff.mpr fun hfinal => hprefix ⟨hfinal, by decide +kernel⟩
    · rintro hnone s ⟨after, rfl⟩
      exact lowercase_prefix_iff.mpr (by simp [hnone])
  | ew =>
    simp only [matchesPart, List.isSuffixOf_iff_suffix, losesCase]
    constructor
    · intro hkeeps
      have hsuffix := lowercase_suffix_iff.mp (hkeeps (['a'] ++ t) (List.suffix_append _ _))
      exact Bool.eq_false_iff.mpr fun hlone => hsuffix ⟨hlone, by decide +kernel⟩
    · rintro hnone s ⟨before, rfl⟩
      exact lowercase_suffix_iff.mpr (by simp [hnone])
  | _ => cases hop

end Roster
