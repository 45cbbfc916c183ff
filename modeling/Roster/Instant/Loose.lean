import Roster.Instant.Parser
import Roster.Text.Blank

/-!
Reading a timestamp in a loose form: blanks may stand before its parts, numbers may be short, years
of any length have a sign, and the offset may be `UTC` or lack its colon.
-/

namespace Roster

namespace Instant

/-- A number of one digit or more, blanks before it passed over. -/
def readShort? (most : Nat) (cs : List Char) : Option (Nat × List Char) :=
  let cs := skipBlanks cs
  let digits := (cs.take most).takeWhile isDigit
  if digits.isEmpty then none else some (decimalValue digits, cs.drop digits.length)

/-- A year of at most four digits, or of any length behind a sign. -/
def readYear? (cs : List Char) : Option (Int × List Char) :=
  let signed (sign : Int) (rest : List Char) :=
    let digits := rest.takeWhile isDigit
    if digits.isEmpty then none
    else some (sign * decimalValue digits, rest.drop digits.length)
  match skipBlanks cs with
  | '+' :: rest => signed 1 rest
  | '-' :: rest => signed (-1) rest
  | cs => (readShort? 4 cs).map fun r => ((r.1 : Int), r.2)

/-- The text after one expected character, blanks before it passed over. -/
def expectLater? (c : Char) (cs : List Char) : Option (List Char) :=
  expect? c (skipBlanks cs)

/-- An offset whose hours and minutes have a colon, blanks or nothing between them. -/
def readLooseOffset? (cs : List Char) : Option (Int × List Char) :=
  match skipBlanks cs with
  | 'Z' :: rest => some (0, rest)
  | 'z' :: rest => some (0, rest)
  | c :: rest =>
    if beginsWith "utc".toList (c :: rest) then some (0, rest.drop 2)
    else do
      let sign ← offsetSign? c
      let (hours, rest) ← readNumber? 2 rest
      let (minutes, rest) ← readNumber? 2 (rest.dropWhile fun c => c == ':' || isBlank c)
      (offsetOf? sign hours minutes).map fun offset => (offset, rest)
  | [] => none

/-- Whether a year is one that instants may lie in. -/
def isYear (year : Int) : Bool :=
  -262143 ≤ year && year ≤ 262142

/-- The instant that a timestamp in loose form names. -/
def parseLoose? (text : String) : Option Instant := do
  let (year, rest) ← readYear? text.toList
  let rest ← expectLater? '-' rest
  let (month, rest) ← readShort? 2 rest
  let rest ← expectLater? '-' rest
  let (day, rest) ← readShort? 2 rest
  let rest ← match rest with
    | c :: rest => if c == 'T' || c == 't' || c == ' ' then some rest else none
    | [] => none
  let (hour, rest) ← readShort? 2 rest
  let rest ← expectLater? ':' rest
  let (minute, rest) ← readShort? 2 rest
  let rest ← expectLater? ':' rest
  let (second, rest) ← readShort? 2 rest
  let (nanos, rest) ← readFraction? rest
  let (offset, rest) ← readLooseOffset? rest
  let t ← ofParts? ⟨year, month, day⟩ hour minute second nanos offset
  let shown := (Date.ofDays (Int.fdiv t.seconds 86400)).year
  if isYear year && isYear shown && (skipBlanks rest).isEmpty then some t else none

end Instant

end Roster
