import Roster.Instant.Parser
import Roster.Instant.Basic
import Roster.Proofs.Decimal

/-! The text of an instant is a timestamp. Every day has a date of the calendar, and the text of an
instant in a year of four digits is read. -/

namespace Roster

namespace Instant

/-! ### The calendar -/

/-- The years of an era begin with their leap days behind them: within an era of 400 years, a year
has 365 days before its last one, and one more if the next is a leap year. -/
theorem yearOfEra_spec {day year : Int} (h0 : 0 ≤ day) (h1 : day < 146097)
    (hy : year = (day - day / 1460 + day / 36524 - day / 146096) / 365) :
    0 ≤ year ∧ year < 400 ∧ 365 * year + year / 4 - year / 100 ≤ day ∧
      (day ≤ 365 * year + year / 4 - year / 100 + 364 ∨
        day = 365 * year + year / 4 - year / 100 + 365 ∧ (year + 1) % 4 = 0 ∧
          ((year + 1) % 100 ≠ 0 ∨ (year + 1) % 400 = 0)) := by
  rcases (by omega : day = 146096 ∨ day < 146096) with rfl | hlast
  · omega
  · -- a day of a century, and of four years in it
    have hera : day / 146096 = 0 := by omega
    obtain ⟨century, r, hday, hc0, hc3, hr0, hr⟩ : ∃ century r : Int,
        day = 36524 * century + r ∧ 0 ≤ century ∧ century ≤ 3 ∧ 0 ≤ r ∧ r < 36524 :=
      ⟨day / 36524, day % 36524, by omega, by omega, by omega⟩
    have hcentury : day / 36524 = century := by omega
    obtain ⟨four, s, hfour, hs0, hs⟩ : ∃ four s : Int, r = 1461 * four + s ∧ 0 ≤ s ∧ s < 1461 :=
      ⟨r / 1461, r % 1461, by omega, by omega⟩
    obtain ⟨t, ht, ht0, ht1, hts⟩ : ∃ t : Int, day / 1460 = 25 * century + four + t ∧ 0 ≤ t ∧
        t ≤ 1 ∧ (t = 1 ↔ 1460 ≤ four + s + 24 * century) :=
      ⟨day / 1460 - 25 * century - four, by omega, by omega, by omega, by omega⟩
    obtain ⟨n, hn, hn0, hn3, hns, hns'⟩ : ∃ n : Int, year = 100 * century + 4 * four + n ∧ 0 ≤ n ∧
        n ≤ 3 ∧ 365 * n ≤ s ∧ (s ≤ 365 * n + 364 ∨ n = 3) := by
      refine ⟨year - 100 * century - 4 * four, by omega, ?_, ?_, ?_, ?_⟩ <;> omega
    have hyear : year / 100 = century := by omega
    omega

/-- Months are counted from March, with 153 days to five of them. -/
theorem daysInMonth_fromMarch (year : Int) {m : Nat} (hm : m < 11) :
    daysInMonth year (if m < 10 then m + 3 else m - 9) =
      (153 * (m + 1) + 2) / 5 - (153 * m + 2) / 5 := by
  interval_cases m <;> rfl

/-- Every day has a date of the calendar. -/
theorem ofDays_isValid (days : Int) : (Date.ofDays days).isValid = true := by
  unfold Date.ofDays
  extract_lets shifted era dayOfEra yearOfEra dayOfYear monthFromMarch day month year
  have hera : era = shifted / 146097 := Int.fdiv_eq_ediv_of_nonneg _ (by decide)
  obtain ⟨h0, h400, hlow, hhigh⟩ := @yearOfEra_spec dayOfEra yearOfEra (by omega) (by omega) rfl
  obtain ⟨m, hm⟩ : ∃ m : Nat, monthFromMarch = m :=
    ⟨monthFromMarch.toNat, by omega⟩
  have hm11 : m ≤ 11 := by omega
  have hmonth : month.toNat = if m < 10 then m + 3 else m - 9 := by
    simp only [month, hm]
    split_ifs <;> omega
  have hbefore : (153 * monthFromMarch + 2) / 5 = ((153 * m + 2) / 5 : Nat) := by
    rw [hm]
    rfl
  have hday : 1 ≤ day.toNat := by omega
  have hdays : day.toNat ≤ daysInMonth year month.toNat := by
    rw [hmonth]
    rcases hm11.lt_or_eq with hlt | rfl
    · have hnext : dayOfYear + 1 ≤ ((153 * (m + 1) + 2) / 5 : Nat) := by omega
      rw [daysInMonth_fromMarch year hlt]
      omega
    · -- the last month is February, of a year that begins in January before
      have hyear : year = yearOfEra + era * 400 + 1 := by
        simp only [year, month, hm]
        rfl
      rcases hhigh with hhigh | ⟨hhigh, h4, h100⟩
      · have h28 : 28 ≤ daysInMonth year 2 := by
          simp only [daysInMonth]
          split_ifs <;> decide
        exact le_trans (by omega) h28
      · have hleap : isLeapYear year = true := by
          simp only [isLeapYear, Bool.and_eq_true, Bool.or_eq_true, beq_iff_eq, bne_iff_ne]
          omega
        have h29 : daysInMonth year 2 = 29 := by simp [daysInMonth, hleap]
        exact le_trans (by omega) h29.ge
  have hfinal : 1 ≤ month.toNat ∧ month.toNat ≤ 12 := by
    rw [hmonth]
    split_ifs <;> omega
  simp [Date.isValid, hfinal, hday, hdays]

/-! ### The text of an instant -/

/-- The year of an instant in UTC. -/
def year (t : Instant) : Int := (Date.ofDays (Int.fdiv t.seconds 86400)).year

/-- Timestamps are written with four digits for the year. -/
def HasYear (t : Instant) : Prop := 0 ≤ t.year ∧ t.year ≤ 9999

instance (t : Instant) : Decidable t.HasYear := by unfold HasYear; infer_instance

theorem readNumber?_padded {width n : Nat} (hw : 0 < width) (hn : n < 10 ^ width)
    (rest : List Char) : readNumber? width (paddedDigits width n ++ rest) = some (n, rest) := by
  have hlength := paddedDigits_length hw hn
  have htake : (paddedDigits width n ++ rest).take width = paddedDigits width n := by
    rw [List.take_append_of_le_length hlength.ge, List.take_of_length_le hlength.le]
  have hdrop : (paddedDigits width n ++ rest).drop width = rest := by
    rw [List.drop_append_of_le_length hlength.ge, List.drop_of_length_le hlength.le,
      List.nil_append]
  simp [readNumber?, htake, hdrop, hlength, decimalValue_eq, paddedDigits_value,
    all_isDigit_paddedDigits]

theorem paddedDigits_ne_nil (width n : Nat) : paddedDigits width n ≠ [] :=
  List.append_ne_nil_of_right_ne_nil _ Nat.toDigits_ne_nil

/-- A fraction is read up to the sign of UTC, whatever its digits. -/
theorem readFraction?_padded (width n : Nat) (rest : List Char) :
    ∃ nanos, readFraction? ('.' :: (paddedDigits width n ++ 'Z' :: rest)) =
      some (nanos, 'Z' :: rest) := by
  have hdigits := all_isDigit_paddedDigits width n
  have hstop : ∀ c ∈ ('Z' :: rest).head?, isDigit c = false := by
    simp only [List.head?_cons, Option.mem_def, Option.some.injEq]
    rintro c rfl
    rfl
  have htake := takeWhile_append_stop hdigits hstop
  have hdrop := dropWhile_append_stop hdigits hstop
  have hread : (readFraction? ('.' :: (paddedDigits width n ++ 'Z' :: rest))).map Prod.snd =
      some ('Z' :: rest) := by
    simp only [readFraction?, htake, hdrop, List.isEmpty_iff, paddedDigits_ne_nil, if_false,
      Option.map_some]
  obtain ⟨⟨nanos, left⟩, hfound, rfl⟩ := Option.map_eq_some_iff.mp hread
  exact ⟨nanos, hfound⟩

theorem daysInMonth_le (year : Int) (month : Nat) : daysInMonth year month ≤ 31 := by
  unfold daysInMonth
  split
  · split_ifs <;> decide
  all_goals decide

/-- The characters of a timestamp in UTC. -/
def timestamp (year month day hour minute second millis : Nat) : List Char :=
  paddedDigits 4 year ++ '-' :: (paddedDigits 2 month ++ '-' :: (paddedDigits 2 day ++
    'T' :: (paddedDigits 2 hour ++ ':' :: (paddedDigits 2 minute ++ ':' :: (paddedDigits 2 second ++
      '.' :: (paddedDigits 3 millis ++ ['Z']))))))

/-- A timestamp of a date of the calendar and a time of day is read. -/
theorem parse?_timestamp {text : String} {date : Date} {year hour minute second millis : Nat}
    (ht : text.toList = timestamp year date.month date.day hour minute second millis)
    (hdate : date.isValid = true) (hyear : date.year = year) (h4 : year ≤ 9999) (hhour : hour ≤ 23)
    (hminute : minute ≤ 59) (hsecond : second ≤ 60) : (parse? text).isSome = true := by
  have hbounds := hdate
  simp only [Date.isValid, Bool.and_eq_true, decide_eq_true_eq] at hbounds
  obtain ⟨⟨⟨-, hmonth⟩, -⟩, hday⟩ := hbounds
  have hday31 := hday.trans (daysInMonth_le date.year date.month)
  have hread {n : Nat} (hn : n < 100) := readNumber?_padded (by decide : 0 < 2) hn
  obtain ⟨nanos, hfraction⟩ := readFraction?_padded 3 millis []
  have hoffset : readOffset? ['Z'] = some (0, []) := rfl
  unfold parse?
  rw [ht, timestamp, readNumber?_padded (by decide) (by omega)]
  dsimp only [bind, Option.bind, expect?]
  -- the numbers of two digits in turn, and what stands between them
  simp only [beq_self_eq_true, Bool.true_or, if_true, hread (show date.month < 100 by omega),
    hread (show date.day < 100 by omega), hread (show hour < 100 by omega),
    hread (show minute < 100 by omega), hread (show second < 100 by omega), hfraction, hoffset]
  simp [ofParts?, ← hyear, hdate, hhour, hminute, hsecond]

/-- The text of an instant in a year of four digits is a timestamp. -/
theorem parse?_toText {t : Instant} (h : t.HasYear) : (parse? t.toText).isSome = true := by
  unfold toText
  extract_lets days date ofDay leap second millis
  have hyear : yearText date.year = paddedText 4 date.year.toNat := if_pos h
  obtain ⟨h0, h4⟩ : 0 ≤ date.year ∧ date.year ≤ 9999 := h
  have hdays : days = t.seconds / 86400 := Int.fdiv_eq_ediv_of_nonneg _ (by decide)
  have hofDay : ofDay < 86400 := by omega
  have hsecond : second ≤ 60 := by
    simp only [second]
    split_ifs <;> omega
  refine @parse?_timestamp _ date date.year.toNat (ofDay / 3600) (ofDay / 60 % 60) second millis ?_
    (ofDays_isValid days) (by omega) (by omega) (by omega) (by omega) hsecond
  simp only [hyear, String.toList_append, paddedText_toList, List.append_assoc]
  rfl

end Instant

end Roster
