import Roster.Instant.Basic
import Roster.Text.Ascii
import Roster.Width

/-!
Reading an RFC 3339 timestamp: a date of the calendar, a time of day whose second may be 60, an
optional fraction of which nine digits count, and an offset. Nothing may follow.
-/

namespace Roster

namespace Instant

/-- A number of exactly `count` digits off the front of a text. -/
def readNumber? (count : Nat) (cs : List Char) : Option (Nat × List Char) :=
  let digits := cs.take count
  if digits.length == count && digits.all isDigit then some (decimalValue digits, cs.drop count)
  else none

/-- The text after one expected character. -/
def expect? (c : Char) : List Char → Option (List Char)
  | x :: rest => if x == c then some rest else none
  | [] => none

/-- The fraction in nanoseconds, when there is one. -/
def readFraction? : List Char → Option (Nat × List Char)
  | '.' :: rest =>
    let digits := rest.takeWhile isDigit
    if digits.isEmpty then none
    else
      let kept := digits.take 9
      some (decimalValue kept * tenTo (9 - kept.length), rest.dropWhile isDigit)
  | cs => some (0, cs)

/-- The sign of an offset. The minus sign may be the typographic one. -/
def offsetSign? (c : Char) : Option Int :=
  if c == '+' then some 1 else if c == '-' || c.toNat == 0x2212 then some (-1) else none

/-- An offset in seconds, less than a day. -/
def offsetOf? (sign : Int) (hours minutes : Nat) : Option Int :=
  if hours ≤ 23 ∧ minutes ≤ 59 then some (sign * (hours * 3600 + minutes * 60 : Nat)) else none

/-- The offset at the front of a text. -/
def readOffset? : List Char → Option (Int × List Char)
  | 'Z' :: rest => some (0, rest)
  | 'z' :: rest => some (0, rest)
  | c :: rest => do
    let sign ← offsetSign? c
    let (hours, rest) ← readNumber? 2 rest
    let rest ← expect? ':' rest
    let (minutes, rest) ← readNumber? 2 rest
    (offsetOf? sign hours minutes).map fun offset => (offset, rest)
  | [] => none

/-- The instant of a date and a time of day at an offset, if calendar and clock have them. -/
def ofParts? (date : Date) (hour minute second nanos : Nat) (offset : Int) : Option Instant :=
  if date.isValid ∧ hour ≤ 23 ∧ minute ≤ 59 ∧ second ≤ 60 then
    let leap := second == 60
    let ofDay : Nat := hour * 3600 + minute * 60 + if leap then 59 else second
    some ⟨date.toDays * 86400 + ofDay - offset, nanos + if leap then 1000000000 else 0⟩
  else none

/-- The instant that a timestamp names. -/
def parse? (text : String) : Option Instant := do
  let (year, rest) ← readNumber? 4 text.toList
  let rest ← expect? '-' rest
  let (month, rest) ← readNumber? 2 rest
  let rest ← expect? '-' rest
  let (day, rest) ← readNumber? 2 rest
  let rest ← match rest with
    | c :: rest => if c == 'T' || c == 't' || c == ' ' then some rest else none
    | [] => none
  let (hour, rest) ← readNumber? 2 rest
  let rest ← expect? ':' rest
  let (minute, rest) ← readNumber? 2 rest
  let rest ← expect? ':' rest
  let (second, rest) ← readNumber? 2 rest
  let (nanos, rest) ← readFraction? rest
  let (offset, rest) ← readOffset? rest
  if rest.isEmpty then ofParts? ⟨year, month, day⟩ hour minute second nanos offset else none

end Instant

end Roster
