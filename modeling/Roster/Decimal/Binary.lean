import Roster.Binary64.Basic
import Roster.Decimal.Basic
import Roster.Width

/-!
Between decimals and binary64 numbers. Both directions round in their own way, so neither is the
nearest value: a binary number keeps at most 53 bits of decimal mantissa, and a decimal is split at
its point and rounded back to its scale.
-/

namespace Roster

namespace Decimal

/-- Removes the factors of five of a negative power of two, one at a time: halving the mantissa
where it is even, else multiplying by five while that fits. -/
def spreadDown : Nat → Nat → Int → Nat × Int
  | 0, mantissa, tens => (mantissa, tens)
  | fives + 1, mantissa, tens =>
    if mantissa % 2 = 0 then spreadDown fives (mantissa / 2) (tens + 1)
    else if mantissa * 5 ≤ greatestMantissa then spreadDown fives (mantissa * 5) tens
    else spreadDown fives (mantissa / 2) (tens + 1)

/-- The same for a positive power of two: doubling while that fits, else dividing by five. -/
def spreadUp : Nat → Nat → Int → Nat × Int
  | 0, mantissa, tens => (mantissa, tens)
  | fives + 1, mantissa, tens =>
    if mantissa < twoTo 95 then spreadUp fives (mantissa * 2) (tens - 1)
    else spreadUp fives (mantissa / 5) tens

/-- Drops a digit, a half upward. -/
def dropDigit (mantissa : Nat) : Nat :=
  mantissa / 10 + if 5 ≤ mantissa % 10 then 1 else 0

/-- Multiplies out a positive power of ten. -/
def growWhole : Nat → Nat → Option Nat
  | 0, mantissa => some mantissa
  | tens + 1, mantissa =>
    if mantissa * 10 ≤ greatestMantissa then growWhole tens (mantissa * 10) else none

/-- Drops digits until the scale is within its limit; a mantissa of one digit vanishes. -/
def shrinkScale : Nat → Nat → Nat → Nat × Nat
  | 0, mantissa, scale => (mantissa, scale)
  | fuel + 1, mantissa, scale =>
    if scale ≤ greatestScale then (mantissa, scale)
    else if mantissa / 10 = 0 then (0, 0)
    else shrinkScale fuel (dropDigit mantissa) (scale - 1)

/-- Drops digits until the mantissa has at most 52 bits. -/
def shrinkMantissa : Nat → Nat → Nat → Nat × Nat
  | 0, mantissa, scale => (mantissa, scale)
  | fuel + 1, mantissa, scale =>
    if scale = 0 ∨ mantissa < twoTo 52 then (mantissa, scale)
    else shrinkMantissa fuel (dropDigit mantissa) (scale - 1)

/-- Drops zeros at the end of the fraction. -/
def dropZeros : Nat → Nat → Nat × Nat
  | mantissa, 0 => (mantissa, 0)
  | mantissa, scale + 1 =>
    if mantissa % 10 = 0 then dropZeros (mantissa / 10) scale else (mantissa, scale + 1)

/-- The decimal of a binary64 number; none when it is out of range. -/
def ofBinary? (x : Binary64) : Option Decimal := do
  if x.isZero then some (make false 0 0)
  else
    let (mantissa, tens) :=
      if x.exponent < 0 then spreadDown (-x.exponent).toNat x.significand x.exponent
      else spreadUp x.exponent.toNat x.significand x.exponent
    let (mantissa, scale) ←
      if 0 < tens then (growWhole tens.toNat mantissa).map (·, 0)
      else some (shrinkScale (-tens).toNat mantissa (-tens).toNat)
    let (mantissa, scale) := shrinkMantissa scale mantissa scale
    let (mantissa, scale) := dropZeros mantissa scale
    some (make x.negative mantissa scale)

/-- Repeated squaring with a rounding at each product. -/
def powerOfTen? : Nat → Nat → Binary64 → Binary64 → Option Binary64
  | 0, _, _, power => some power
  | fuel + 1, exponent, base, power => do
    let power ← if exponent % 2 = 1 then power.mul? base else some power
    if exponent / 2 = 0 then some power
    else
      let square ← base.mul? base
      powerOfTen? fuel (exponent / 2) square power

/-- The binary64 number of a decimal. -/
def toBinary? (d : Decimal) : Option Binary64 := do
  let unit := tenTo d.scale
  let whole ← Binary64.ofNat? false (d.mantissa / unit)
  if d.scale = 0 then some { whole with negative := d.negative }
  else
    let rest ← Binary64.ofNat? false (d.mantissa % unit)
    let divisor ← Binary64.ofNat? false unit
    let fraction ← rest.div? divisor
    if fraction.isZero then some { whole with negative := d.negative }
    else
      let value ← whole.addMagnitudes? fraction
      let ten ← Binary64.ofNat? false 10
      let one ← Binary64.ofNat? false 1
      let power ← powerOfTen? 6 d.scale ten one
      let product ← value.mul? power
      let rounded ← Binary64.ofNat? false product.roundMagnitude
      let result ← rounded.div? power
      some { result with negative := d.negative }

end Decimal

end Roster
