import Roster.Width

/-!
Finite numbers of the binary64 format, kept as sign, significand and exponent of two, with the
rounding of an exact quotient to the nearest of them and the arithmetic that rests on it.
-/

namespace Roster

/-- The number `± significand · 2 ^ exponent`. The rounding below writes each value in one way:
the significand lies in [2^52, 2^53), or below 2^52 when the exponent is the least one. -/
structure Binary64 where
  negative : Bool
  significand : Nat
  exponent : Int
deriving DecidableEq, Repr, Inhabited

namespace Binary64

/-- The exponent of the numbers too small for a full significand. -/
def leastExponent : Int := -1074

/-- The exponent of the largest numbers. -/
def greatestExponent : Int := 971

def zero (negative : Bool) : Binary64 := ⟨negative, 0, leastExponent⟩

def isZero (x : Binary64) : Bool := x.significand == 0

/-- Numerator and denominator of `n · 2 ^ e`. -/
def scaled (n : Nat) (e : Int) : Nat × Nat :=
  if 0 ≤ e then (n * twoTo e.toNat, 1) else (n, twoTo (-e).toNat)

/-- The quotient to the nearest whole number, a half to the even one. -/
def divideEven (num den : Nat) : Nat :=
  let q := num / den
  let r := num % den
  if 2 * r < den then q
  else if den < 2 * r then q + 1
  else q + q % 2

/-- The exponent at which `num / den` has a whole part in [2^52, 2^53), but not below the least. -/
def exponentFor (num den : Nat) : Int :=
  let guess : Int := (num.log2 : Int) - den.log2 - 52
  let reaches := if 0 ≤ guess then twoTo 52 * (den * twoTo guess.toNat) ≤ num
    else twoTo 52 * den ≤ num * twoTo (-guess).toNat
  max leastExponent (if reaches then guess else guess - 1)

/-- The number nearest to `num / den`, a tie to the even significand; none past the largest. -/
def ofRatio? (negative : Bool) (num den : Nat) : Option Binary64 :=
  if num = 0 ∨ den = 0 then some (zero negative)
  else
    let e := exponentFor num den
    let m := if 0 ≤ e then divideEven num (den * twoTo e.toNat)
      else divideEven (num * twoTo (-e).toNat) den
    let (m, e) := if m = twoTo 53 then (twoTo 52, e + 1) else (m, e)
    if e ≤ greatestExponent then some ⟨negative, m, e⟩ else none

def ofNat? (negative : Bool) (n : Nat) : Option Binary64 :=
  ofRatio? negative n 1

/-- The magnitude as numerator and denominator. -/
def ratio (x : Binary64) : Nat × Nat :=
  scaled x.significand x.exponent

def mul? (x y : Binary64) : Option Binary64 :=
  let (a, b) := scaled (x.significand * y.significand) (x.exponent + y.exponent)
  ofRatio? (x.negative != y.negative) a b

/-- The rounded quotient; none for a zero divisor. -/
def div? (x y : Binary64) : Option Binary64 :=
  if y.isZero then none
  else
    let (a, b) := scaled x.significand (x.exponent - y.exponent)
    ofRatio? (x.negative != y.negative) a (b * y.significand)

/-- The rounded sum of two magnitudes. -/
def addMagnitudes? (x y : Binary64) : Option Binary64 :=
  let (a, b) := x.ratio
  let (c, d) := y.ratio
  ofRatio? false (a * d + c * b) (b * d)

/-- The nearest whole magnitude, a half away from zero. -/
def roundMagnitude (x : Binary64) : Nat :=
  let (a, b) := x.ratio
  (2 * a + b) / (2 * b)

/-- Equality of values: the two zeros are equal. -/
def same (x y : Binary64) : Bool :=
  x == y || (x.isZero && y.isZero)

end Binary64

end Roster
