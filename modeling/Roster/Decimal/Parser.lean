import Roster.Decimal.Basic
import Roster.Width

/-!
Reading decimals. Digits after the point that find the mantissa full or the scale at its limit
round once, a half upward, and the digits behind them are dropped; a whole part that does not fit
is refused.
-/

namespace Roster

namespace Decimal

/-- The mantissa and scale after one rounding digit. A carry out of the mantissa gives up a place
of the scale. -/
def roundBy (digit mantissa scale : Nat) : Option (Nat × Nat) :=
  if digit < 5 then some (mantissa, scale)
  else if mantissa + 1 ≤ greatestMantissa then some (mantissa + 1, scale)
  else if scale = 0 then none
  else some ((mantissa + 1 + 4) / 10, scale - 1)

/-- Reads the digits before the point. -/
def readWhole (digits : List Char) : Option Nat :=
  let n := decimalValue digits
  if n ≤ greatestMantissa then some n else none

/-- Reads the digits after the point. -/
def readFraction : List Char → Nat → Nat → Option (Nat × Nat)
  | [], mantissa, scale => some (mantissa, scale)
  | c :: rest, mantissa, scale =>
    let digit := c.toNat - '0'.toNat
    if scale = greatestScale then roundBy digit mantissa scale
    else if mantissa * 10 + digit ≤ greatestMantissa then
      readFraction rest (mantissa * 10 + digit) (scale + 1)
    else roundBy digit mantissa scale

/-- Reads `digits`, `digits.digits` or `.digits` after an optional minus sign. -/
def parsePlain? (text : List Char) : Option Decimal := do
  let (negative, body) := match text with
    | '-' :: rest => (true, rest)
    | rest => (false, rest)
  let whole := body.takeWhile isDigit
  let fraction ← match body.dropWhile isDigit with
    | [] => some []
    | '.' :: rest => if rest.all isDigit then some rest else none
    | _ => none
  if whole.isEmpty && fraction.isEmpty then none
  let n ← readWhole whole
  let (mantissa, scale) ← readFraction fraction n 0
  some (make negative mantissa scale)

/-- Reads the exponent behind the sign that `parseScientific?` looks at. -/
def readExponent? (text : List Char) : Option Nat :=
  let digits := match text with
    | '+' :: rest => rest
    | rest => rest
  if digits.isEmpty || !digits.all isDigit then none else some (decimalValue digits)

/-- Moves the point of `base` by the exponent: to the left within the largest scale, to the right
through the digits after the point and then by zeros that must still fit. -/
def shift? (base : Decimal) (leftward : Bool) (exponent : Nat) : Option Decimal :=
  if leftward then
    if exponent ≤ greatestScale ∧ base.scale + exponent ≤ greatestScale then
      some { base with scale := base.scale + exponent }
    else none
  else if exponent ≤ base.scale then some { base with scale := base.scale - exponent }
  else if exponent ≤ greatestScale then
    let mantissa := base.mantissa * tenTo (exponent - base.scale)
    if mantissa ≤ greatestMantissa then some { base with mantissa, scale := 0 } else none
  else none

/-- Reads a plain decimal, `e` or `E`, and an exponent. -/
def parseScientific? (text : List Char) : Option Decimal := do
  let isMark (c : Char) : Bool := c == 'e' || c == 'E'
  let base ← parsePlain? (text.takeWhile fun c => !isMark c)
  match text.dropWhile fun c => !isMark c with
  | _ :: '-' :: exponent =>
    let digits ← readExponent? exponent
    shift? base true digits
  | _ :: exponent =>
    let digits ← readExponent? exponent
    shift? base false digits
  | [] => none

end Decimal

end Roster
