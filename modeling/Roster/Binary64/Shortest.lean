import Roster.Binary64.Basic

/-!
The fewest decimal digits that read back as a binary64 number, and its text: positional from
1e-5 up to 1e16, with an exponent outside.
-/

namespace Roster

namespace Binary64

/-- The reals that round to a magnitude `m · 2 ^ e`, with all three bounds over one denominator;
the ends belong to them when the significand is even. -/
structure Interval where
  low : Nat
  value : Nat
  high : Nat
  den : Nat
  closed : Bool
deriving Repr

/-- The gap below a power of two is half the gap above it. -/
def interval (x : Binary64) : Interval :=
  let m := x.significand
  let below := if m = twoTo 52 ∧ leastExponent < x.exponent then 1 else 2
  let (unit, den) := scaled 1 (x.exponent - 2)
  ⟨(4 * m - below) * unit, 4 * m * unit, (4 * m + 2) * unit, den, m % 2 == 0⟩

/-- Whether `digits · 10 ^ k` lies in the interval. -/
def Interval.holds (i : Interval) (digits : Nat) (k : Int) : Bool :=
  let (n, d) := if 0 ≤ k then (digits * tenTo k.toNat, 1) else (digits, tenTo (-k).toNat)
  let point := n * i.den
  if i.closed then i.low * d ≤ point && point ≤ i.high * d
  else i.low * d < point && point < i.high * d

/-- The power of ten of the first digit: `10 ^ k ≤ value < 10 ^ (k + 1)`. -/
def Interval.magnitude (i : Interval) : Int :=
  let atLeast (k : Int) : Bool :=
    if 0 ≤ k then tenTo k.toNat * i.den ≤ i.value else i.den ≤ i.value * tenTo (-k).toNat
  let bits : Int := (i.value.log2 : Int) - i.den.log2
  let guess := bits * 30103 / 100000
  if atLeast (guess + 1) then guess + 1
  else if atLeast guess then guess
  else if atLeast (guess - 1) then guess - 1
  else guess - 2

/-- The value's neighbours on the grid of multiples of `10 ^ k`, the nearer first; of two at the
same distance, the even one. -/
def Interval.neighbours (i : Interval) (k : Int) : List Nat :=
  let (n, d) := if 0 ≤ k then (i.value, i.den * tenTo k.toNat)
    else (i.value * tenTo (-k).toNat, i.den)
  let q := n / d
  let r := n % d
  if 2 * r < d then [q, q + 1]
  else if d < 2 * r then [q + 1, q]
  else if q % 2 = 0 then [q, q + 1]
  else [q + 1, q]

/-- The first grid, from `count` digits on, that holds a point of the interval. -/
def Interval.search (i : Interval) (top : Int) : Nat → Nat → Nat × Int
  | 0, count =>
    let k := top - count
    ((i.neighbours k).headD 0, k)
  | fuel + 1, count =>
    let k := top - count
    match (i.neighbours k).find? (i.holds · k) with
    | some digits => (digits, k)
    | none => i.search top fuel (count + 1)

/-- Digits without trailing zeros, and the power of ten that goes with them. -/
def trimZeros : Nat → Nat → Int → Nat × Int
  | 0, n, k => (n, k)
  | fuel + 1, n, k => if n ≠ 0 ∧ n % 10 = 0 then trimZeros fuel (n / 10) (k + 1) else (n, k)

/-- The shortest digits `n` and power `k` with `n · 10 ^ k` read back as the magnitude. -/
def shortest (x : Binary64) : Nat × Int :=
  if x.isZero then (0, 0)
  else
    let i := x.interval
    let (n, k) := i.search i.magnitude 17 0
    trimZeros 20 n k

/-- The text of a number: positional from 1e-5 up to 1e16, where a whole value ends in `.0`, and
else with a signed exponent. -/
def toText (x : Binary64) : String :=
  let sign := if x.negative then "-" else ""
  if x.isZero then sign ++ "0.0"
  else
    let (n, k) := x.shortest
    let digits := Nat.toDigits 10 n
    let point : Int := digits.length + k
    let zeros (c : Int) : List Char := List.replicate c.toNat '0'
    let body :=
      if 0 ≤ k ∧ point ≤ 16 then digits ++ zeros k ++ ['.', '0']
      else if 0 < point ∧ point ≤ 16 then
        digits.take point.toNat ++ '.' :: digits.drop point.toNat
      else if -5 < point ∧ point ≤ 0 then ['0', '.'] ++ zeros (-point) ++ digits
      else
        let mantissa := match digits with
          | [] => []
          | [d] => [d]
          | d :: rest => d :: '.' :: rest
        let exponent := point - 1
        mantissa ++ ['e', if exponent < 0 then '-' else '+'] ++ (toString exponent.natAbs).toList
    sign ++ String.ofList body

end Binary64

end Roster
