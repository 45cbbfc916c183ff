import Roster.Proofs.Text
import Roster.Text.Lowercase

/-!
Lower case of texts. The case of ASCII letters never matters. What else has the same lower case as a
text comes from characters in pairs beyond ASCII: a text without such characters shares its lower
case with its ASCII spellings only.
-/

namespace Roster

/-! ### Letters of ASCII -/

theorem toNat_toLower (c : Char) :
    c.toLower.toNat = if 65 ≤ c.toNat ∧ c.toNat ≤ 90 then c.toNat + 32 else c.toNat := by
  have hfirst : 'A'.val.toNat = 65 := rfl
  have hlast : 'Z'.val.toNat = 90 := rfl
  have hshift : ('a'.val - 'A'.val).toNat = 32 := rfl
  unfold Char.toLower
  simp only [Char.toNat]
  split
  case isTrue h =>
    simp only [ge_iff_le, UInt32.le_iff_toNat_le] at h
    rw [if_pos (by omega), UInt32.toNat_add]
    omega
  case isFalse h =>
    simp only [ge_iff_le, UInt32.le_iff_toNat_le] at h
    rw [if_neg (by omega)]

@[simp] theorem toLower_toLower (c : Char) : c.toLower.toLower = c.toLower := by
  refine Char.toNat_inj.mp ?_
  rw [toNat_toLower c.toLower, toNat_toLower c]
  split_ifs <;> omega

theorem toLower_of_beyond {c : Char} (h : 0x80 ≤ c.toNat) : c.toLower = c := by
  refine Char.toNat_inj.mp ?_
  rw [toNat_toLower, if_neg (by omega)]

theorem toLower_lt {c : Char} : c.toLower.toNat < 0x80 ↔ c.toNat < 0x80 := by
  rw [toNat_toLower]
  split_ifs <;> omega

theorem isCased_letter {c : Char} (h : isLetter c = true) : isCased c = true := by
  rw [isLetter_iff] at h
  refine List.any_eq_true.mpr ?_
  rcases h with h | h
  · exact ⟨(0x61, 0x7A), by simp [casedRanges], by simpa using h⟩
  · exact ⟨(0x41, 0x5A), by simp [casedRanges], by simpa using h⟩

theorem isCaseIgnorable_letter {c : Char} (h : isLetter c = true) : isCaseIgnorable c = false := by
  have hgaps : ∀ r ∈ caseIgnorableRanges,
      r.2 < 65 ∨ (90 < r.1 ∧ r.2 < 97) ∨ 122 < r.1 := by decide +kernel
  rw [isLetter_iff] at h
  refine List.any_eq_false.mpr fun r hr => ?_
  have hgap := hgaps r hr
  simp only [Bool.and_eq_true, decide_eq_true_eq]
  omega

theorem isCased_toLower (c : Char) : isCased c.toLower = isCased c := by
  rcases toLower_eq_or c with h | ⟨h, hl⟩
  · rw [h]
  · rw [isCased_letter h, isCased_letter hl]

theorem isCaseIgnorable_toLower (c : Char) : isCaseIgnorable c.toLower = isCaseIgnorable c := by
  rcases toLower_eq_or c with h | ⟨h, hl⟩
  · rw [h]
  · rw [isCaseIgnorable_letter h, isCaseIgnorable_letter hl]

theorem lowerChar_toLower (c : Char) : lowerChar c.toLower = lowerChar c := by
  by_cases h : c.toNat < 0x80
  · simp [lowerChar, h, toLower_lt.mpr h]
  · rw [toLower_of_beyond (not_lt.mp h)]

theorem facesCased_map_toLower (cs : List Char) :
    facesCased (cs.map Char.toLower) = facesCased cs := by
  induction cs with
  | nil => rfl
  | cons c cs ih =>
    simp only [facesCased, List.map_cons, List.dropWhile_cons, isCaseIgnorable_toLower] at ih ⊢
    cases isCaseIgnorable c
    · exact isCased_toLower c
    · exact ih

theorem lowerAfter_map_toLower (before cs : List Char) :
    lowerAfter (before.map Char.toLower) (cs.map Char.toLower) = lowerAfter before cs := by
  induction cs generalizing before with
  | nil => rfl
  | cons c cs ih =>
    have hsigma : (c.toLower.toNat == 0x3A3) = (c.toNat == 0x3A3) := by
      rw [Bool.eq_iff_iff, beq_iff_eq, beq_iff_eq, toNat_toLower]
      split_ifs <;> omega
    rw [List.map_cons, lowerAfter, lowerAfter, ← List.map_cons, ih (c :: before), hsigma,
      facesCased_map_toLower, facesCased_map_toLower, lowerChar_toLower]

/-- Names that are the same have the same lower case. -/
theorem lowercase_congr {a b : String} (h : sameName a b = true) :
    lowercase a.toList = lowercase b.toList := by
  have hfold : a.toList.map Char.toLower = b.toList.map Char.toLower := sameName_iff.mp h
  rw [lowercase, lowercase, ← lowerAfter_map_toLower [] a.toList,
    ← lowerAfter_map_toLower [] b.toList, hfold]

/-! ### Characters in pairs -/

/-- Whether a character is alone with its lower case, but for the other case of an ASCII letter.
Not so is k, of which the sign for kelvin is another capital, a sigma, a dotted capital I and the
dot above, and what is the capital or the small letter of a run. -/
def isUnpaired (c : Char) : Bool :=
  if c.toNat < 0x80 then c.toLower != 'k'
  else c.toNat != 0x130 && c.toNat != 0x307 && c.toNat != 0x3C2 &&
    lowercaseRuns.all fun run =>
      !inRanges [(run.1, run.2.1), (run.2.2.2, run.2.2.2 + (run.2.1 - run.1))] c

theorem isUnpaired_toLower (c : Char) : isUnpaired c.toLower = isUnpaired c := by
  by_cases h : c.toNat < 0x80
  · simp [isUnpaired, h, toLower_lt.mpr h]
  · rw [toLower_of_beyond (not_lt.mp h)]

/-- A small letter beyond ASCII is the character itself, or lies as far into the small letters of a
run as the character into its capitals. -/
theorem lowerBeyondAscii_cases (c : Char) : lowerBeyondAscii c = c ∨
    ∃ run ∈ lowercaseRuns, run.1 ≤ c.toNat ∧ c.toNat ≤ run.2.1 ∧
      (lowerBeyondAscii c).toNat = run.2.2.2 + (c.toNat - run.1) := by
  have hvalid : ∀ run ∈ lowercaseRuns, run.2.2.2 + (run.2.1 - run.1) < 0xD800 ∨
      (0xDFFF < run.2.2.2 ∧ run.2.2.2 + (run.2.1 - run.1) < 0x110000) := by
    decide +kernel
  simp only [lowerBeyondAscii]
  split
  case h_1 run hfind =>
    have hmem := List.mem_of_find?_eq_some hfind
    have hrun := List.find?_some hfind
    simp only [Bool.and_eq_true, decide_eq_true_eq] at hrun
    refine .inr ⟨run, hmem, hrun.1.1, hrun.1.2, ?_⟩
    have hbound := hvalid run hmem
    have hscalar : (run.2.2.2 + (c.toNat - run.1)).isValidChar := by
      simp only [Nat.isValidChar]
      omega
    rw [Char.ofNat, dif_pos hscalar]
    rfl
  case h_2 => exact .inl rfl

/-- What gives unpaired characters is their ASCII spelling. -/
theorem lowerChar_of_unpaired {c : Char} (h : ∀ x ∈ lowerChar c, isUnpaired x = true) :
    lowerChar c = [c.toLower] := by
  have hkelvin : ∀ run ∈ lowercaseRuns, run.2.2.2 < 0x80 → run.2.2.2 = 0x6B ∧ run.1 = run.2.1 := by
    decide +kernel
  by_cases hascii : c.toNat < 0x80
  · simp [lowerChar, hascii]
  · simp only [lowerChar, hascii, if_false] at h ⊢
    split at h
    case isTrue => exact absurd (h (Char.ofNat 0x307) (by simp)) (by decide)
    case isFalse hdotted =>
      rw [if_neg hdotted, toLower_of_beyond (not_lt.mp hascii)]
      rcases lowerBeyondAscii_cases c with hsame | ⟨run, hrun, hfirst, hlast, hsmall⟩
      · rw [hsame]
      -- a run leads to a small letter that is paired with the capital it comes from
      · have hx := h _ (List.mem_singleton_self _)
        have hfew := hkelvin run hrun
        rw [isUnpaired] at hx
        split at hx
        case isTrue hlow =>
          have hk : lowerBeyondAscii c = 'k' := Char.toNat_inj.mp (by
            rw [hsmall, show 'k'.toNat = 0x6B from rfl]
            omega)
          rw [hk] at hx
          cases hx
        case isFalse hhigh =>
          have hout := List.all_eq_true.mp (Bool.and_eq_true_iff.mp hx).2 run hrun
          simp only [inRanges, List.any_cons, List.any_nil, Bool.or_false, Bool.not_eq_true',
            Bool.or_eq_false_iff, Bool.and_eq_false_iff, decide_eq_false_iff_not] at hout
          omega

/-- An unpaired character has an unpaired lower case. -/
theorem isUnpaired_lowerChar {c : Char} (h : isUnpaired c = true) : lowerChar c = [c.toLower] := by
  by_cases hascii : c.toNat < 0x80
  · simp [lowerChar, hascii]
  · simp only [isUnpaired, hascii, if_false, Bool.and_eq_true, bne_iff_ne, ne_eq] at h
    rw [lowerChar, if_neg hascii, if_neg (by simpa using h.1.1.1),
      toLower_of_beyond (not_lt.mp hascii)]
    rcases lowerBeyondAscii_cases c with hsame | ⟨run, hrun, hfirst, hlast, -⟩
    · rw [hsame]
    · have hout := List.all_eq_true.mp h.2 run hrun
      simp only [inRanges, List.any_cons, List.any_nil, Bool.or_false, Bool.not_eq_true',
        Bool.or_eq_false_iff, Bool.and_eq_false_iff, decide_eq_false_iff_not] at hout
      omega

/-- A text without sigmas in a row of single characters is lowered one by one. -/
theorem lowerAfter_unpaired {cs : List Char} (h : ∀ c ∈ cs, isUnpaired c = true)
    (before : List Char) : lowerAfter before cs = cs.map Char.toLower := by
  have hsigma : ∀ c : Char, isUnpaired c = true → (c.toNat == 0x3A3) = false := by
    intro c hc
    by_contra hne
    rw [Bool.not_eq_false, beq_iff_eq] at hne
    rw [show c = Char.ofNat 0x3A3 by rw [← hne, Char.ofNat_toNat]] at hc
    exact absurd hc (by decide)
  induction cs generalizing before with
  | nil => rfl
  | cons c cs ih =>
    obtain ⟨hc, hcs⟩ := List.forall_mem_cons.mp h
    rw [lowerAfter, ih hcs, hsigma c hc, if_neg Bool.false_ne_true, isUnpaired_lowerChar hc]
    rfl

/-- What gives a text of unpaired characters is its ASCII spellings. -/
theorem map_toLower_of_lowerAfter {before cs : List Char}
    (h : ∀ x ∈ lowerAfter before cs, isUnpaired x = true) :
    lowerAfter before cs = cs.map Char.toLower := by
  induction cs generalizing before with
  | nil => rfl
  | cons c cs ih =>
    rw [lowerAfter] at h ⊢
    obtain ⟨hfirst, hrest⟩ := List.forall_mem_append.mp h
    rw [ih hrest, List.map_cons]
    split at hfirst
    case isTrue =>
      exfalso
      split at hfirst <;> exact absurd (hfirst _ (List.mem_singleton_self _)) (by decide)
    case isFalse hc =>
      rw [if_neg hc, lowerChar_of_unpaired hfirst]
      rfl

/-- A text whose lower case no other text has, ASCII spellings aside. -/
def Unshared (v : String) : Prop :=
  ∀ n : String, lowercase n.toList = lowercase v.toList → sameName n v = true

theorem unshared_of_unpaired {v : String} (h : ∀ c ∈ v.toList, isUnpaired c = true) :
    Unshared v := by
  intro n hn
  have hv : lowercase v.toList = v.toList.map Char.toLower := lowerAfter_unpaired h []
  have hall : ∀ x ∈ lowerAfter [] n.toList, isUnpaired x = true := by
    rw [show lowerAfter [] n.toList = v.toList.map Char.toLower from hn.trans hv]
    intro x hx
    obtain ⟨c, hc, rfl⟩ := List.mem_map.mp hx
    rw [isUnpaired_toLower]
    exact h c hc
  refine sameName_iff.mpr ?_
  rw [foldCase, foldCase, ← map_toLower_of_lowerAfter hall, ← hv]
  exact hn

end Roster
