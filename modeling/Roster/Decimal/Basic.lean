import Roster.Text.Ascii
import Roster.Width

/-!
Decimal numbers `± mantissa / 10 ^ scale` with a mantissa of 96 bits and a scale up to 28. The
scale is kept for printing and ignored by comparison.
-/

namespace Roster

structure Decimal where
  negative : Bool
  mantissa : Nat
  scale : Nat
deriving DecidableEq, Repr, Inhabited

namespace Decimal

/-- The largest mantissa. -/
def greatestMantissa : Nat := twoTo 96 - 1

/-- The largest scale. -/
def greatestScale : Nat := 28

/-- A decimal whose zero carries no sign. -/
def make (negative : Bool) (mantissa scale : Nat) : Decimal :=
  ⟨negative && mantissa != 0, mantissa, scale⟩

def ofInt (n : Int) : Decimal :=
  ⟨n < 0, n.natAbs, 0⟩

/-- The signed mantissa. -/
def signed (d : Decimal) : Int :=
  if d.negative then -(d.mantissa : Int) else d.mantissa

/-- Order of the values, whatever the scales. -/
def order (a b : Decimal) : Ordering :=
  compare (a.signed * tenTo b.scale) (b.signed * tenTo a.scale)

/-- Equality of values. -/
def same (a b : Decimal) : Bool :=
  a.order b == .eq

/-- Whether the value is a whole number. -/
def isWhole (d : Decimal) : Bool :=
  d.mantissa % tenTo d.scale == 0

/-- The value with its fraction cut off. -/
def truncate (d : Decimal) : Int :=
  let n : Nat := d.mantissa / tenTo d.scale
  if d.negative then -(n : Int) else n

/-- The text shows exactly `scale` digits after the point and at least one before it. -/
def toText (d : Decimal) : String :=
  let sign := if d.negative then "-" else ""
  let whole := toString (d.mantissa / tenTo d.scale)
  if d.scale = 0 then sign ++ whole
  else sign ++ whole ++ "." ++ paddedText d.scale (d.mantissa % tenTo d.scale)

end Decimal

end Roster
