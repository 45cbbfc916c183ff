import Mathlib.Data.List.Basic
import Mathlib.Data.List.DropRight
import Roster.Filter.Parser

/-! Letters in either case, the classes of characters that tokens are made of, and the front of a
text. -/

namespace Roster

open Roster.Filter (isQualifiedChar)

/-! ### Characters -/

theorem isLetter_iff {c : Char} : isLetter c = true ↔
    (97 ≤ c.toNat ∧ c.toNat ≤ 122) ∨ (65 ≤ c.toNat ∧ c.toNat ≤ 90) := by
  simp [isLetter, Char.le_def, UInt32.le_iff_toNat_le]

theorem toLower_eq_or (c : Char) :
    c.toLower = c ∨ isLetter c = true ∧ isLetter c.toLower = true := by
  simp only [isLetter_iff, Char.toNat]
  unfold Char.toLower
  split
  case isTrue h =>
    simp only [ge_iff_le, UInt32.le_iff_toNat_le] at h
    have hfirst : 'A'.val.toNat = 65 := rfl
    have hlast : 'Z'.val.toNat = 90 := rfl
    have hshift : ('a'.val - 'A'.val).toNat = 32 := rfl
    right
    rw [UInt32.toNat_add]
    omega
  case isFalse => exact .inl rfl

theorem isLetter_toLower (c : Char) : isLetter c.toLower = isLetter c := by
  rcases toLower_eq_or c with h | ⟨h, hl⟩
  · rw [h]
  · rw [h, hl]

/-- Only letters change with case. -/
theorem eq_of_toLower_eq {c d : Char} (h : c.toLower = d) (hd : isLetter d = false) : c = d := by
  rcases toLower_eq_or c with hc | ⟨-, hl⟩
  · exact hc.symm.trans h
  · rw [h, hd] at hl
    exact absurd hl (by decide)

theorem toLower_of_not_isLetter {c : Char} (h : isLetter c = false) : c.toLower = c := by
  rcases toLower_eq_or c with hc | ⟨hl, -⟩
  · exact hc
  · rw [h] at hl
    cases hl

/-- No case tells apart where a character that is no letter stands. -/
theorem mem_foldCase {s : String} {c : Char} (h : isLetter c = false) :
    c ∈ foldCase s ↔ c ∈ s.toList := by
  rw [foldCase, List.mem_map]
  constructor
  · rintro ⟨d, hd, hlower⟩
    exact eq_of_toLower_eq hlower h ▸ hd
  · intro hc
    exact ⟨c, hc, toLower_of_not_isLetter h⟩

theorem isNameChar_of_isLetter {c : Char} (h : isLetter c = true) : isNameChar c = true := by
  simp [isNameChar, h]

theorem isQualifiedChar_of_isNameChar {c : Char} (h : isNameChar c = true) :
    isQualifiedChar c = true := by
  simp [isQualifiedChar, h]

theorem isQualifiedChar_of_isNameStart {c : Char} (h : isNameStart c = true) :
    isQualifiedChar c = true := by
  rcases Bool.or_eq_true_iff.mp h with h | h
  · exact isQualifiedChar_of_isNameChar (isNameChar_of_isLetter h)
  · simp [isQualifiedChar, h]

theorem not_isBlank_of_isQualifiedChar {c : Char} (h : isQualifiedChar c = true) :
    isBlank c = false := by
  have hbounds : 33 ≤ c.toNat ∧ c.toNat ≤ 126 := by
    simp only [isQualifiedChar, isNameChar, Bool.or_eq_true, isLetter_iff, isDigit,
      Bool.and_eq_true, decide_eq_true_eq, beq_iff_eq, Char.le_def, UInt32.le_iff_toNat_le] at h
    have hzero : '0'.val.toNat = 48 := rfl
    have hnine : '9'.val.toNat = 57 := rfl
    simp only [Char.toNat] at *
    rcases h with (((((h | h) | rfl) | rfl) | rfl) | rfl) | rfl <;>
      first | omega | exact ⟨by decide, by decide⟩
  simp only [isBlank, Bool.or_eq_false_iff, Bool.and_eq_false_iff, decide_eq_false_iff_not,
    beq_eq_false_iff_ne]
  omega

theorem not_isQualifiedChar_of_isBlank {c : Char} (h : isBlank c = true) :
    isQualifiedChar c = false := by
  rw [← Bool.not_eq_true]
  intro hq
  rw [not_isBlank_of_isQualifiedChar hq] at h
  cases h

theorem not_isBlank_of_isNameStart {c : Char} (h : isNameStart c = true) : isBlank c = false :=
  not_isBlank_of_isQualifiedChar (isQualifiedChar_of_isNameStart h)

/-! ### The front of a text -/

theorem skipBlanks_cons {c : Char} (cs : List Char) (h : isBlank c = false) :
    skipBlanks (c :: cs) = c :: cs := by
  simp [skipBlanks, h]

@[simp] theorem skipBlanks_space (cs : List Char) : skipBlanks (' ' :: cs) = skipBlanks cs := rfl

/-- What stops a run of characters is none of them. -/
theorem dropWhile_head (P : Char → Bool) (cs : List Char) :
    ∀ c ∈ (cs.dropWhile P).head?, P c = false := by
  intro c hc
  have hfirst := List.head?_dropWhile_not P cs
  rw [Option.mem_def.mp hc] at hfirst
  simpa using hfirst

/-- No blank stands at either end of a text. -/
structure Trimmed (cs : List Char) : Prop where
  first : ∀ c ∈ cs.head?, isBlank c = false
  last : ∀ c ∈ cs.getLast?, isBlank c = false

theorem skipBlanks_of_head {cs : List Char} (h : ∀ c ∈ cs.head?, isBlank c = false) :
    skipBlanks cs = cs := by
  cases cs with
  | nil => rfl
  | cons c cs => exact skipBlanks_cons cs (h c rfl)

theorem Trimmed.trimBlanks {cs : List Char} (h : Trimmed cs) : trimBlanks cs = cs := by
  have hlast : ∀ c ∈ cs.reverse.head?, isBlank c = false := by simpa using h.last
  rw [Roster.trimBlanks, skipBlanks_of_head h.first, skipBlanks_of_head hlast,
    List.reverse_reverse]

theorem skipBlanks_eq_nil {cs : List Char} : skipBlanks cs = [] ↔ ∀ c ∈ cs, isBlank c = true :=
  List.dropWhile_eq_nil_iff

theorem skipBlanks_skipBlanks (cs : List Char) : skipBlanks (skipBlanks cs) = skipBlanks cs :=
  List.dropWhile_idempotent ..

theorem skipBlanks_blanks {bs : List Char} (hb : skipBlanks bs = []) (cs : List Char) :
    skipBlanks (bs ++ cs) = skipBlanks cs := by
  rw [skipBlanks, List.dropWhile_append, show bs.dropWhile isBlank = [] from hb]
  rfl

/-- Nothing but blanks is trimmed off. -/
theorem trimBlanks_split (cs : List Char) : ∃ front back,
    cs = front ++ (trimBlanks cs ++ back) ∧ skipBlanks front = [] ∧ skipBlanks back = [] := by
  have hsplit : skipBlanks cs =
      trimBlanks cs ++ ((skipBlanks cs).reverse.takeWhile isBlank).reverse := by
    rw [trimBlanks, ← List.reverse_append, skipBlanks.eq_def (skipBlanks cs).reverse,
      List.takeWhile_append_dropWhile, List.reverse_reverse]
  refine ⟨cs.takeWhile isBlank, ((skipBlanks cs).reverse.takeWhile isBlank).reverse, ?_,
    skipBlanks_eq_nil.mpr ?_, skipBlanks_eq_nil.mpr ?_⟩
  · rw [← hsplit]
    exact List.takeWhile_append_dropWhile.symm
  · exact fun c hc => List.mem_takeWhile_imp hc
  · exact fun c hc => List.mem_takeWhile_imp (List.mem_reverse.mp hc)

theorem trimmed_trimBlanks (cs : List Char) : Trimmed (trimBlanks cs) := by
  have hfirst (xs : List Char) : ∀ c ∈ (skipBlanks xs).head?, isBlank c = false :=
    dropWhile_head isBlank xs
  refine ⟨fun c hc => ?_, fun c hc => ?_⟩
  · obtain ⟨blanks, hblanks⟩ := List.dropWhile_suffix isBlank (l := (skipBlanks cs).reverse)
    have hsplit : skipBlanks cs = trimBlanks cs ++ blanks.reverse := by
      rw [← List.reverse_reverse (skipBlanks cs), ← hblanks, List.reverse_append]
      rfl
    exact hfirst cs c (by rw [hsplit, List.head?_append, Option.mem_def.mp hc]; rfl)
  · rw [trimBlanks, List.getLast?_reverse] at hc
    exact hfirst _ c hc

theorem Trimmed.append {xs ys : List Char} (hx : Trimmed xs) (hy : Trimmed ys) :
    Trimmed (xs ++ ys) := by
  constructor
  · intro c hc
    rw [List.head?_append] at hc
    rcases Option.or_eq_some_iff.mp hc with h | ⟨-, h⟩
    · exact hx.first c h
    · exact hy.first c h
  · intro c hc
    rw [List.getLast?_append] at hc
    rcases Option.or_eq_some_iff.mp hc with h | ⟨-, h⟩
    · exact hy.last c h
    · exact hx.last c h

/-- A text whose last character is no blank. -/
def EndsVisible (cs : List Char) : Prop :=
  ∃ front c, cs = front ++ [c] ∧ isBlank c = false

theorem EndsVisible.append {ys : List Char} (h : EndsVisible ys) (xs : List Char) :
    EndsVisible (xs ++ ys) := by
  obtain ⟨front, c, rfl, hc⟩ := h
  exact ⟨xs ++ front, c, by simp, hc⟩

theorem endsVisible_all {cs : List Char} (hne : cs ≠ [])
    (h : ∀ c ∈ cs, isBlank c = false) : EndsVisible cs :=
  ⟨cs.dropLast, cs.getLast hne, (List.dropLast_concat_getLast hne).symm,
    h _ (List.getLast_mem hne)⟩

theorem EndsVisible.trimmed {cs : List Char} (h : EndsVisible cs)
    (hfirst : ∀ c ∈ cs.head?, isBlank c = false) : Trimmed cs := by
  obtain ⟨front, c, rfl, hc⟩ := h
  exact ⟨hfirst, by simpa using hc⟩

theorem EndsVisible.of_append {xs ys : List Char} (h : EndsVisible (xs ++ ys)) (hne : ys ≠ []) :
    EndsVisible ys := by
  obtain ⟨front, c, heq, hc⟩ := h
  rcases List.eq_nil_or_concat ys with rfl | ⟨before, d, rfl⟩
  · exact absurd rfl hne
  · rw [List.concat_eq_append, ← List.append_assoc] at heq
    cases (List.append_inj' heq rfl).2
    exact ⟨before, _, List.concat_eq_append, hc⟩

/-- Behind a path and a blank, nothing but that blank is trimmed. -/
theorem EndsVisible.trimBlanks_behind {front more : List Char} {c : Char}
    (h : EndsVisible (front ++ ' ' :: c :: more)) (hc : isBlank c = false) :
    trimBlanks (' ' :: c :: more) = c :: more := by
  have hmore : EndsVisible (c :: more) := by
    rw [List.append_cons] at h
    exact h.of_append (by simp)
  have htrimmed := hmore.trimmed (by simpa using hc)
  exact htrimmed.trimBlanks

/-- Nothing is trimmed behind a text that ends with no blank. -/
theorem EndsVisible.trimBlanks {cs : List Char} (h : EndsVisible cs) :
    trimBlanks cs = skipBlanks cs := by
  have hfirst : ∀ c ∈ (skipBlanks cs).head?, isBlank c = false := dropWhile_head isBlank cs
  have hne : skipBlanks cs ≠ [] := by
    obtain ⟨front, c, rfl, hc⟩ := h
    intro hnil
    rw [skipBlanks_eq_nil.mp hnil c (by simp)] at hc
    cases hc
  obtain ⟨front, hfront⟩ := List.dropWhile_suffix isBlank (l := cs)
  have hvisible : EndsVisible (skipBlanks cs) := by
    rw [← hfront] at h
    exact h.of_append hne
  have htrimmed := (hvisible.trimmed hfirst).trimBlanks
  rwa [Roster.trimBlanks, skipBlanks_skipBlanks] at htrimmed

theorem beginsWith_iff {word cs : List Char} : beginsWith word cs = true ↔
    ∃ front rest, cs = front ++ rest ∧ front.map Char.toLower = word := by
  rw [beginsWith, beq_iff_eq]
  constructor
  · intro h
    exact ⟨_, _, (List.take_append_drop word.length cs).symm, h⟩
  · rintro ⟨front, rest, rfl, rfl⟩
    rw [List.length_map, List.take_left]

theorem beginsWith_append {word cs : List Char} (h : beginsWith word cs = true)
    (rest : List Char) : beginsWith word (cs ++ rest) = true := by
  obtain ⟨front, more, rfl, hfront⟩ := beginsWith_iff.mp h
  exact beginsWith_iff.mpr ⟨front, more ++ rest, List.append_assoc .., hfront⟩

theorem takeWhile_append_stop {p : Char → Bool} {cs rest : List Char} (h : cs.all p = true)
    (hrest : ∀ c ∈ rest.head?, p c = false) : (cs ++ rest).takeWhile p = cs := by
  rw [List.takeWhile_append_of_pos (List.all_eq_true.mp h)]
  cases rest with
  | nil => simp
  | cons c rest => simp [hrest c rfl]

theorem dropWhile_append_stop {p : Char → Bool} {cs rest : List Char} (h : cs.all p = true)
    (hrest : ∀ c ∈ rest.head?, p c = false) : (cs ++ rest).dropWhile p = rest := by
  rw [List.dropWhile_append_of_pos (List.all_eq_true.mp h)]
  cases rest with
  | nil => simp
  | cons c rest => simp [hrest c rfl]

end Roster
