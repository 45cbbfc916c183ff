import Mathlib.Data.Nat.Digits.Lemmas
import Roster.Decimal.Parser
import Roster.Proofs.Text

/-!
The text of a decimal is read back. Reading gives decimals whose mantissa and scale are within
their limits, and within these limits the digits of the text are read without rounding.
-/

namespace Roster

open Nat (ofDigitChars ofDigitChars_cons ofDigitChars_append ofDigitChars_eq_ofDigitChars_zero
  ofDigitChars_replicate_zero ofDigitChars_ten_toDigits)

theorem isDigit_eq (c : Char) : isDigit c = c.isDigit := by
  simp only [isDigit, Char.isDigit, Char.le_def]

theorem decimalValue_eq (cs : List Char) : decimalValue cs = ofDigitChars 10 cs 0 := by
  simp only [decimalValue, Nat.ofDigitChars_eq_foldl, Nat.mul_comm]

theorem all_isDigit_toDigits (n : Nat) : (Nat.toDigits 10 n).all isDigit = true := by
  rw [List.all_eq_true]
  intro c hc
  rw [isDigit_eq]
  exact Nat.isDigit_of_mem_toDigits (by decide) (by decide) hc

theorem ofDigitChars_ge (cs : List Char) (n : Nat) : n ≤ ofDigitChars 10 cs n := by
  rw [ofDigitChars_eq_ofDigitChars_zero]
  have h : 1 * n ≤ 10 ^ cs.length * n := Nat.mul_le_mul_right n (tenTo_pos cs.length)
  omega

/-! ### Digits behind the point -/

/-- The digits that `paddedText` writes. -/
def paddedDigits (width n : Nat) : List Char :=
  List.replicate (width - (Nat.toDigits 10 n).length) '0' ++ Nat.toDigits 10 n

theorem paddedText_toList (width n : Nat) : (paddedText width n).toList = paddedDigits width n := by
  simp [paddedText, paddedDigits]

theorem all_isDigit_paddedDigits (width n : Nat) : (paddedDigits width n).all isDigit = true := by
  rw [paddedDigits, List.all_append, all_isDigit_toDigits, Bool.and_true, List.all_eq_true]
  intro c hc
  rw [List.eq_of_mem_replicate hc]
  decide

theorem paddedDigits_length {width n : Nat} (hw : 0 < width) (hn : n < 10 ^ width) :
    (paddedDigits width n).length = width := by
  have h : (Nat.toDigits 10 n).length ≤ width :=
    (Nat.length_toDigits_le_iff (by decide) hw).mpr hn
  simp only [paddedDigits, List.length_append, List.length_replicate]
  omega

theorem paddedDigits_value (width n : Nat) : ofDigitChars 10 (paddedDigits width n) 0 = n := by
  rw [paddedDigits, ofDigitChars_append, ofDigitChars_replicate_zero, Nat.mul_zero,
    ofDigitChars_ten_toDigits]

namespace Decimal

/-- A mantissa and a scale within their limits, and no sign on zero. -/
structure InRange (d : Decimal) : Prop where
  mantissa_le : d.mantissa ≤ greatestMantissa
  scale_le : d.scale ≤ greatestScale
  nonzero : d.negative = true → d.mantissa ≠ 0

theorem InRange.make {negative : Bool} {mantissa scale : Nat}
    (hm : mantissa ≤ greatestMantissa) (hs : scale ≤ greatestScale) :
    (make negative mantissa scale).InRange where
  mantissa_le := hm
  scale_le := hs
  nonzero := by simp [Decimal.make]

theorem make_eq {d : Decimal} (h : d.InRange) : make d.negative d.mantissa d.scale = d := by
  obtain ⟨negative, mantissa, scale⟩ := d
  have hz : negative = true → mantissa ≠ 0 := h.nonzero
  cases negative <;> simp_all [make]

/-! ### The stages of a plain decimal -/

/-- The decimal of a sign, the digits before the point and those behind it. -/
def ofDigits? (negative : Bool) (whole fraction : List Char) : Option Decimal :=
  if whole.isEmpty && fraction.isEmpty then none
  else (readWhole whole).bind fun n =>
    (readFraction fraction n 0).map fun r => make negative r.1 r.2

/-- What follows the sign. -/
def readBody? (negative : Bool) (body : List Char) : Option Decimal :=
  match body.dropWhile isDigit with
  | [] => ofDigits? negative (body.takeWhile isDigit) []
  | '.' :: rest =>
    if rest.all isDigit then ofDigits? negative (body.takeWhile isDigit) rest else none
  | _ => none

theorem parsePlain?_minus (body : List Char) :
    parsePlain? ('-' :: body) = readBody? true body := by
  unfold parsePlain? readBody? ofDigits?
  cases hpoint : body.dropWhile isDigit with
  | nil => simp [hpoint, Option.map_eq_bind]
  | cons c rest =>
    by_cases hc : c = '.' <;> simp [hpoint, hc, Option.map_eq_bind]

theorem parsePlain?_unsigned {cs : List Char} (h : cs.head? ≠ some '-') :
    parsePlain? cs = readBody? false cs := by
  cases cs with
  | nil => rfl
  | cons c body =>
    have hc : c ≠ '-' := by simpa using h
    unfold parsePlain? readBody? ofDigits?
    cases hpoint : (c :: body).dropWhile isDigit with
    | nil => simp [hc, hpoint, Option.map_eq_bind]
    | cons d rest =>
      by_cases hd : d = '.' <;> simp [hc, hpoint, hd, Option.map_eq_bind]

/-! ### What is read is in range -/

theorem roundBy_inRange {digit mantissa scale m s : Nat} (hm : mantissa ≤ greatestMantissa)
    (hs : scale ≤ greatestScale) (h : roundBy digit mantissa scale = some (m, s)) :
    m ≤ greatestMantissa ∧ s ≤ greatestScale := by
  unfold roundBy at h
  split at h
  · cases h
    exact ⟨hm, hs⟩
  · split at h
    case isTrue hfits =>
      cases h
      exact ⟨hfits, hs⟩
    case isFalse =>
      split at h
      · cases h
      · cases h
        omega

theorem readFraction_inRange {cs : List Char} {mantissa scale m s : Nat}
    (hm : mantissa ≤ greatestMantissa) (hs : scale ≤ greatestScale)
    (h : readFraction cs mantissa scale = some (m, s)) :
    m ≤ greatestMantissa ∧ s ≤ greatestScale := by
  induction cs generalizing mantissa scale with
  | nil =>
    cases h
    exact ⟨hm, hs⟩
  | cons c cs ih =>
    simp only [readFraction] at h
    split at h
    · exact roundBy_inRange hm hs h
    case isFalse hfull =>
      split at h
      case isTrue hfits => exact ih hfits (by omega) h
      case isFalse => exact roundBy_inRange hm hs h

theorem ofDigits?_inRange {negative : Bool} {whole fraction : List Char} {d : Decimal}
    (h : ofDigits? negative whole fraction = some d) : d.InRange := by
  simp only [ofDigits?] at h
  split at h
  · cases h
  · simp only [Option.bind_eq_some_iff, Option.map_eq_some_iff] at h
    obtain ⟨n, hn, ⟨m, s⟩, hfraction, rfl⟩ := h
    have hwhole : n ≤ greatestMantissa := by
      simp only [readWhole] at hn
      split at hn
      · cases hn
        assumption
      · cases hn
    have hread := readFraction_inRange hwhole (Nat.zero_le _) hfraction
    exact .make hread.1 hread.2

theorem readBody?_inRange {negative : Bool} {body : List Char} {d : Decimal}
    (h : readBody? negative body = some d) : d.InRange := by
  simp only [readBody?] at h
  split at h
  · exact ofDigits?_inRange h
  · split at h
    · exact ofDigits?_inRange h
    · cases h
  · cases h

theorem parsePlain?_inRange {cs : List Char} {d : Decimal} (h : parsePlain? cs = some d) :
    d.InRange := by
  by_cases hminus : cs.head? = some '-'
  · obtain ⟨body, rfl⟩ := List.head?_eq_some_iff.mp hminus
    exact readBody?_inRange (parsePlain?_minus body ▸ h)
  · exact readBody?_inRange (parsePlain?_unsigned hminus ▸ h)

theorem shift?_inRange {base d : Decimal} {leftward : Bool} {exponent : Nat}
    (hb : base.InRange) (h : shift? base leftward exponent = some d) : d.InRange := by
  obtain ⟨hm, hs, hz⟩ := hb
  simp only [shift?] at h
  split at h
  · split at h
    · cases h
      exact ⟨hm, by simp only; omega, hz⟩
    · cases h
  · split at h
    · cases h
      exact ⟨hm, by simp only; omega, hz⟩
    · split at h
      · split at h
        case isTrue hfits =>
          cases h
          refine ⟨hfits, Nat.zero_le _, fun hneg hzero => ?_⟩
          exact Nat.ne_of_gt (Nat.mul_pos (Nat.pos_of_ne_zero (hz hneg)) (tenTo_pos _)) hzero
        · cases h
      · cases h

theorem parseScientific?_inRange {cs : List Char} {d : Decimal}
    (h : parseScientific? cs = some d) : d.InRange := by
  simp only [parseScientific?, Option.bind_eq_bind, Option.bind_eq_some_iff] at h
  obtain ⟨base, hbase, h⟩ := h
  split at h
  · simp only [Option.bind_eq_some_iff] at h
    obtain ⟨digits, -, h⟩ := h
    exact shift?_inRange (parsePlain?_inRange hbase) h
  · simp only [Option.bind_eq_some_iff] at h
    obtain ⟨digits, -, h⟩ := h
    exact shift?_inRange (parsePlain?_inRange hbase) h
  · cases h

/-! ### What is written is read back -/

theorem toText_toList (d : Decimal) :
    d.toText.toList = (if d.negative then ['-'] else []) ++
      Nat.toDigits 10 (d.mantissa / tenTo d.scale) ++
      (if d.scale = 0 then [] else '.' :: paddedDigits d.scale (d.mantissa % tenTo d.scale)) := by
  cases hneg : d.negative <;> by_cases hs : d.scale = 0 <;>
    simp [toText, hneg, hs, paddedText_toList]

/-- Digits that fit leave no rounding. -/
theorem readFraction_digits {cs : List Char} {mantissa scale : Nat}
    (hm : ofDigitChars 10 cs mantissa ≤ greatestMantissa)
    (hs : scale + cs.length ≤ greatestScale) :
    readFraction cs mantissa scale = some (ofDigitChars 10 cs mantissa, scale + cs.length) := by
  induction cs generalizing mantissa scale with
  | nil => rfl
  | cons c cs ih =>
    simp only [List.length_cons] at hs
    rw [ofDigitChars_cons, Nat.mul_comm] at hm
    have hfull : scale ≠ greatestScale := by omega
    -- more digits only make a value larger, and the last value fits
    have hfits : mantissa * 10 + (c.toNat - '0'.toNat) ≤ greatestMantissa :=
      (ofDigitChars_ge cs _).trans hm
    simp only [readFraction, if_neg hfull, if_pos hfits]
    rw [ih hm (by omega), ofDigitChars_cons, Nat.mul_comm mantissa 10, List.length_cons,
      Nat.add_right_comm, Nat.add_assoc]

theorem parsePlain?_sign {body : List Char} (negative : Bool) (h : body.head? ≠ some '-') :
    parsePlain? ((if negative then ['-'] else []) ++ body) = readBody? negative body := by
  cases negative with
  | true => exact parsePlain?_minus body
  | false => exact parsePlain?_unsigned h

/-- Whole digits, a point and digits that fit are read back. -/
theorem readBody?_digits {negative : Bool} {whole fraction : List Char} {n m s : Nat}
    (hw : whole.all isDigit = true) (hne : whole ≠ []) (hf : fraction.all isDigit = true)
    (hn : readWhole whole = some n) (hm : readFraction fraction n 0 = some (m, s)) :
    readBody? negative (whole ++ '.' :: fraction) = some (make negative m s) := by
  have hpoint : ∀ c ∈ ('.' :: fraction).head?, isDigit c = false := by
    rintro c ⟨⟩
    decide
  simp [readBody?, ofDigits?, takeWhile_append_stop hw hpoint, dropWhile_append_stop hw hpoint,
    hf, hne, hn, hm]

theorem readBody?_whole {negative : Bool} {whole : List Char} {n : Nat}
    (hw : whole.all isDigit = true) (hne : whole ≠ []) (hn : readWhole whole = some n) :
    readBody? negative whole = some (make negative n 0) := by
  have hstop : ∀ c ∈ ([] : List Char).head?, isDigit c = false := by simp
  have htake := takeWhile_append_stop hw hstop
  have hdrop := dropWhile_append_stop hw hstop
  rw [List.append_nil] at htake hdrop
  simp [readBody?, ofDigits?, htake, hdrop, hne, hn, readFraction]

theorem head?_toDigits_ne_minus (n : Nat) (cs : List Char) :
    (Nat.toDigits 10 n ++ cs).head? ≠ some '-' := by
  have hall := all_isDigit_toDigits n
  cases h : Nat.toDigits 10 n with
  | nil => exact absurd h Nat.toDigits_ne_nil
  | cons c digits =>
    rw [h, List.all_cons, Bool.and_eq_true] at hall
    rintro ⟨⟩
    exact absurd hall.1 (by decide)

theorem parsePlain?_toText {d : Decimal} (h : d.InRange) :
    parsePlain? d.toText.toList = some d := by
  have hwhole : readWhole (Nat.toDigits 10 (d.mantissa / tenTo d.scale)) =
      some (d.mantissa / tenTo d.scale) := by
    have hfits := (Nat.div_le_self d.mantissa (tenTo d.scale)).trans h.mantissa_le
    rw [readWhole, decimalValue_eq, ofDigitChars_ten_toDigits, if_pos hfits]
  rw [toText_toList, List.append_assoc, parsePlain?_sign _ (head?_toDigits_ne_minus _ _)]
  by_cases hs : d.scale = 0
  · have hone : d.mantissa / tenTo d.scale = d.mantissa := by
      rw [hs]
      exact Nat.div_one _
    rw [if_pos hs, List.append_nil,
      readBody?_whole (all_isDigit_toDigits _) Nat.toDigits_ne_nil hwhole, hone, ← hs, make_eq h]
  · have hlt : d.mantissa % tenTo d.scale < 10 ^ d.scale := Nat.mod_lt _ (tenTo_pos _)
    have hlength := paddedDigits_length (Nat.pos_of_ne_zero hs) hlt
    have hmantissa : ofDigitChars 10 (paddedDigits d.scale (d.mantissa % tenTo d.scale))
        (d.mantissa / tenTo d.scale) = d.mantissa := by
      rw [ofDigitChars_eq_ofDigitChars_zero, paddedDigits_value, hlength]
      exact Nat.div_add_mod d.mantissa (tenTo d.scale)
    have hfraction : readFraction (paddedDigits d.scale (d.mantissa % tenTo d.scale))
        (d.mantissa / tenTo d.scale) 0 = some (d.mantissa, d.scale) := by
      rw [readFraction_digits (by rw [hmantissa]; exact h.mantissa_le)
        (by rw [hlength, Nat.zero_add]; exact h.scale_le), hmantissa, hlength, Nat.zero_add]
    rw [if_neg hs, readBody?_digits (all_isDigit_toDigits _) Nat.toDigits_ne_nil
      (all_isDigit_paddedDigits _ _) hwhole hfraction, make_eq h]

end Decimal

end Roster
