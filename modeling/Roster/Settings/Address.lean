import Roster.Text.Ascii

/-!
Network addresses: four numbers between dots, or eight groups of hexadecimal digits between colons,
of which a double colon leaves out zeros.
-/

namespace Roster

inductive Address where
  | v4 (a b c d : Nat)
  | v6 (groups : List Nat)
deriving DecidableEq, Repr, Inhabited

namespace Address

/-! ### Reading -/

/-- A number of at most three decimal digits up to 255, without leading zeros. -/
def readByte? (cs : List Char) : Option (Nat × List Char) :=
  let digits := cs.takeWhile isDigit
  let n := decimalValue digits
  if digits.isEmpty || 3 < digits.length || 255 < n then none
  else if digits.head? == some '0' && 1 < digits.length then none
  else some (n, cs.drop digits.length)

/-- Bytes between dots. -/
def readBytes? : Nat → List Char → Option (List Nat × List Char)
  | 0, _ => none
  | 1, cs => (readByte? cs).map fun r => ([r.1], r.2)
  | n + 2, cs => do
    let (b, rest) ← readByte? cs
    match rest with
    | '.' :: rest => (readBytes? (n + 1) rest).map fun r => (b :: r.1, r.2)
    | _ => none

/-- A group of one to four hexadecimal digits. -/
def readGroup? (cs : List Char) : Option (Nat × List Char) :=
  let digits := cs.takeWhile fun c => (hexValue? c).isSome
  if digits.isEmpty || 4 < digits.length then none
  else some ((digits.filterMap hexValue?).foldl (fun n d => n * 16 + d) 0, cs.drop digits.length)

/-- The text behind the colon that must stand before every group but the first. -/
def behindColon? (first : Bool) (cs : List Char) : Option (List Char) :=
  if first then some cs
  else match cs with
    | ':' :: rest => some rest
    | _ => none

/-- At most `room` groups, of which the last two may be four bytes; whether they were. -/
def readGroups : Nat → Bool → List Char → List Nat × Bool × List Char
  | 0, _, cs => ([], false, cs)
  | room + 1, first, cs =>
    match behindColon? first cs with
    | none => ([], false, cs)
    | some inner =>
      match if 0 < room then readBytes? 4 inner else none with
      | some ([a, b, c, d], rest) => ([a * 256 + b, c * 256 + d], true, rest)
      | _ =>
        match readGroup? inner with
        | none => ([], false, cs)
        | some (g, rest) =>
          let (groups, bytes, rest) := readGroups room false rest
          (g :: groups, bytes, rest)

/-- The eight groups of an address. -/
def readV6? (cs : List Char) : Option (List Nat × List Char) :=
  let (front, bytes, rest) := readGroups 8 true cs
  if front.length = 8 then some (front, rest)
  else if bytes then none
  else match rest with
    | ':' :: ':' :: rest =>
      let (back, _, rest) := readGroups (7 - front.length) true rest
      some (front ++ List.replicate (8 - front.length - back.length) 0 ++ back, rest)
    | _ => none

def ofText? (text : String) : Option Address :=
  match readBytes? 4 text.toList with
  | some ([a, b, c, d], rest) => if rest.isEmpty then some (.v4 a b c d) else none
  | _ =>
    match readV6? text.toList with
    | some (groups, []) => some (.v6 groups)
    | _ => none

/-! ### Writing -/

def bytesText (bytes : List Nat) : String :=
  ".".intercalate (bytes.map toString)

def groupsText (groups : List Nat) : String :=
  ":".intercalate (groups.map fun g => String.ofList (Nat.toDigits 16 g))

/-- How many zeros the list starts with. -/
def zerosAhead (groups : List Nat) : Nat :=
  (groups.takeWhile (· == 0)).length

/-- The start and the length of the first of the longest runs of zeros. -/
def longestZeros (groups : List Nat) : Nat × Nat :=
  (List.range groups.length).foldl
    (fun best i =>
      let length := zerosAhead (groups.drop i)
      if best.2 < length then (i, length) else best)
    (0, 0)

def toText : Address → String
  | .v4 a b c d => bytesText [a, b, c, d]
  | .v6 [0, 0, 0, 0, 0, 0xffff, g, h] =>
    "::ffff:" ++ bytesText [g / 256, g % 256, h / 256, h % 256]
  | .v6 groups =>
    let (start, length) := longestZeros groups
    if length < 2 then groupsText groups
    else groupsText (groups.take start) ++ "::" ++ groupsText (groups.drop (start + length))

/-- The address with a port. -/
def withPort (a : Address) (port : Nat) : String :=
  match a with
  | .v4 _ _ _ _ => a.toText ++ ":" ++ toString port
  | .v6 _ => "[" ++ a.toText ++ "]:" ++ toString port

end Address

end Roster
