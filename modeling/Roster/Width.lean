/-!
Powers of two and of ten, and whole numbers that fit in a signed word of 64 bits.
-/

namespace Roster

/-- `2 ^ n`. -/
def twoTo (n : Nat) : Nat := Nat.pow 2 n

/-- `10 ^ n`. -/
def tenTo (n : Nat) : Nat := Nat.pow 10 n

theorem tenTo_pos (n : Nat) : 0 < tenTo n := Nat.pow_pos (by decide)

/-- The number, when it fits in a signed word of 64 bits. -/
def signedWord? (n : Int) : Option Int :=
  if -(twoTo 63 : Int) ≤ n ∧ n < twoTo 63 then some n else none

end Roster
