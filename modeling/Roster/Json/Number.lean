import Roster.Json.Basic
import Roster.Width

/-!
Reading the numbers of a JSON text. A whole number of 64 bits is kept; any other is a significand
of 64 bits, with the digits that do not fit counted into the exponent or dropped behind the point,
times a power of ten in binary64 arithmetic.
-/

namespace Roster

namespace Number

/-- The largest significand. -/
def greatestSignificand : Nat := twoTo 64 - 1

/-- The largest exponent that is read. -/
def greatestExponent : Nat := twoTo 31 - 1

/-- Digits taken into the significand while they fit, and the digits left over. -/
def takeDigits : List Char → Nat → Nat → Nat × Nat × List Char
  | [], significand, count => (significand, count, [])
  | c :: rest, significand, count =>
    let next := significand * 10 + (c.toNat - '0'.toNat)
    if next ≤ greatestSignificand then takeDigits rest next (count + 1)
    else (significand, count, c :: rest)

/-- `x · 10 ^ exponent` for an exponent within the table of powers. -/
def timesPower? (x : Binary64) (exponent : Int) : Option Binary64 := do
  let power ← Binary64.ofNat? false (tenTo exponent.natAbs)
  if 0 ≤ exponent then x.mul? power else x.div? power

/-- `x · 10 ^ exponent`, a small exponent in steps of 10 ^ 308; none past the largest number. -/
def scale? : Nat → Binary64 → Int → Option Binary64
  | 0, x, _ => some x
  | fuel + 1, x, exponent =>
    if exponent.natAbs ≤ 308 then timesPower? x exponent
    else if x.isZero then some x
    else if 0 ≤ exponent then none
    else (timesPower? x (-308)).bind (scale? fuel · (exponent + 308))

/-- A significand times a power of ten. Four steps bring every significand to zero. -/
def ofParts? (negative : Bool) (significand : Nat) (exponent : Int) : Option Number := do
  let start ← Binary64.ofNat? false significand
  let x ← scale? 8 start exponent
  some (.binary { x with negative })

/-- The exponent behind `e`: its value as far as it is read, and whether it is larger still. -/
def exponentOf (digits : List Char) : Option Nat :=
  let n := decimalValue digits
  if n ≤ greatestExponent then some n else none

/-- A sum kept within 32 bits. -/
def clampExponent (n : Int) : Int :=
  max (-(twoTo 31 : Int)) (min n ((twoTo 31 : Int) - 1))

/-- The parts of a number's text. -/
structure Parts where
  negative : Bool
  whole : List Char
  fraction : Option (List Char)
  exponent : Option (Bool × List Char)

/-- The value of a number's parts; none when it is out of range. -/
def ofText? (p : Parts) : Option Number :=
  let (significand, _, excess) := takeDigits p.whole 0 0
  match p.fraction, p.exponent with
  | none, none =>
    if excess.isEmpty && !p.negative then some (.whole significand)
    else if excess.isEmpty && 0 < significand && significand ≤ twoTo 63 then
      some (.whole (-(significand : Int)))
    else ofParts? p.negative significand excess.length
  | fraction, exponent =>
    let (significand, places, _) := takeDigits (fraction.getD []) significand 0
    let start : Int := (excess.length : Int) - places
    match exponent with
    | none => ofParts? p.negative significand start
    | some (negative, digits) =>
      match exponentOf digits with
      | some e =>
        ofParts? p.negative significand (clampExponent (if negative then start - e else start + e))
      | none =>
        if significand ≠ 0 ∧ !negative then none
        else some (.binary (Binary64.zero p.negative))

/-- Splits a number off the front of a text. A leading zero stands alone. -/
def split? (cs : List Char) : Option (Parts × List Char) := do
  let (negative, cs) := match cs with
    | '-' :: rest => (true, rest)
    | rest => (false, rest)
  let whole := cs.takeWhile isDigit
  if whole.isEmpty || (whole.head? == some '0' && 1 < whole.length) then none
  let cs := cs.drop whole.length
  let (fraction, cs) := match cs with
    | '.' :: rest => (some (rest.takeWhile isDigit), rest.dropWhile isDigit)
    | rest => (none, rest)
  if fraction == some [] then none
  let (exponent, cs) := match cs with
    | c :: rest =>
      if c == 'e' || c == 'E' then
        let (negative, rest) := match rest with
          | '-' :: rest => (true, rest)
          | '+' :: rest => (false, rest)
          | rest => (false, rest)
        (some (negative, rest.takeWhile isDigit), rest.dropWhile isDigit)
      else (none, c :: rest)
    | [] => (none, [])
  if exponent.any (·.2.isEmpty) then none
  some (⟨negative, whole, fraction, exponent⟩, cs)

/-- Reads a number off the front of a text. -/
def read? (cs : List Char) : Option (Number × List Char) := do
  let (parts, rest) ← split? cs
  let n ← ofText? parts
  some (n, rest)

end Number

end Roster
