import Roster.Json.Number

/-!
Reading a JSON text: one value of at most 127 nested lists and objects, with blanks around it.
Members are first read in the order of the text, repeated names included. The members that a record
does not declare are checked for their form alone.
-/

namespace Roster

namespace Json

/-- The nesting that is read. -/
def greatestDepth : Nat := 127

def isSpace (c : Char) : Bool :=
  c == ' ' || c == '\n' || c == '\t' || c == '\r'

def skipSpaces (cs : List Char) : List Char :=
  cs.dropWhile isSpace

/-- Four hexadecimal digits. -/
def readHex? : List Char → Option (Nat × List Char)
  | a :: b :: c :: d :: rest => do
    let a ← hexValue? a
    let b ← hexValue? b
    let c ← hexValue? c
    let d ← hexValue? d
    some (((a * 16 + b) * 16 + c) * 16 + d, rest)
  | _ => none

/-- The character of an escape by code unit. The first half of a pair must be followed by the
second; either half alone is refused. -/
def readUnit? (cs : List Char) : Option (Char × List Char) := do
  let (high, rest) ← readHex? cs
  if 0xD800 ≤ high && high ≤ 0xDBFF then
    match rest with
    | '\\' :: 'u' :: rest =>
      let (low, rest) ← readHex? rest
      if 0xDC00 ≤ low && low ≤ 0xDFFF then
        some (Char.ofNat (0x10000 + (high - 0xD800) * 0x400 + (low - 0xDC00)), rest)
      else none
    | _ => none
  else if 0xDC00 ≤ high && high ≤ 0xDFFF then none
  else some (Char.ofNat high, rest)

/-- The rest of a quoted text, after its opening quote. -/
def readString? : Nat → List Char → List Char → Option (String × List Char)
  | 0, _, _ => none
  | fuel + 1, done, cs =>
    match cs with
    | [] => none
    | '"' :: rest => some (String.ofList done.reverse, rest)
    | '\\' :: c :: rest =>
      match c with
      | '"' => readString? fuel ('"' :: done) rest
      | '\\' => readString? fuel ('\\' :: done) rest
      | '/' => readString? fuel ('/' :: done) rest
      | 'b' => readString? fuel (Char.ofNat 8 :: done) rest
      | 'f' => readString? fuel (Char.ofNat 12 :: done) rest
      | 'n' => readString? fuel ('\n' :: done) rest
      | 'r' => readString? fuel ('\r' :: done) rest
      | 't' => readString? fuel ('\t' :: done) rest
      | 'u' =>
        match readUnit? rest with
        | some (c, rest) => readString? fuel (c :: done) rest
        | none => none
      | _ => none
    | c :: rest => if c.toNat < 32 || c == '\\' then none else readString? fuel (c :: done) rest

/-- A quoted text. -/
def readQuoted? (cs : List Char) : Option (String × List Char) :=
  match cs with
  | '"' :: rest => readString? (rest.length + 1) [] rest
  | _ => none

/-- A reader takes something off the front of a text. -/
abbrev Reader (α : Type) := List Char → Option (α × List Char)

/-- How texts and numbers are read. -/
structure Leaves where
  text : Reader String
  number : Reader Number

/-- Texts and numbers for what they say. -/
def Leaves.exact : Leaves := ⟨readQuoted?, Number.read?⟩

/-- The text behind the closing quote, where escapes need not stand for characters. -/
def skipString? : List Char → Option (List Char)
  | '"' :: rest => some rest
  | '\\' :: 'u' :: a :: b :: c :: d :: rest =>
    if [a, b, c, d].all fun c => (hexValue? c).isSome then skipString? rest else none
  | '\\' :: c :: rest =>
    if "\"\\/bfnrt".toList.contains c then skipString? rest else none
  | c :: rest => if c.toNat < 32 || c == '\\' then none else skipString? rest
  | [] => none

/-- Texts and numbers for their form: a number may be out of range. -/
def Leaves.formal : Leaves where
  text
    | '"' :: rest => (skipString? rest).map ("", ·)
    | _ => none
  number cs := (Number.split? cs).map fun r => (.whole 0, r.2)

/-- The items of a list up to its closing bracket, the first one due. -/
def readItems (item : Reader Json) : Nat → List Json → Reader (List Json)
  | 0, _, _ => none
  | fuel + 1, done, cs => do
    let (v, rest) ← item cs
    match skipSpaces rest with
    | ',' :: rest => readItems item fuel (v :: done) rest
    | ']' :: rest => some ((v :: done).reverse, rest)
    | _ => none

/-- The members of an object up to its closing brace, the first one due. -/
def readMembers (name : Reader String) (item : String → Reader Json) :
    Nat → List (String × Json) → Reader (List (String × Json))
  | 0, _, _ => none
  | fuel + 1, done, cs => do
    let (key, rest) ← name (skipSpaces cs)
    match skipSpaces rest with
    | ':' :: rest =>
      let (v, rest) ← item key rest
      match skipSpaces rest with
      | ',' :: rest => readMembers name item fuel ((key, v) :: done) rest
      | '\x7d' :: rest => some (((key, v) :: done).reverse, rest)
      | _ => none
    | _ => none

def readArray (item : Reader Json) : Reader Json := fun cs =>
  match skipSpaces cs with
  | ']' :: rest => some (.arr [], rest)
  | cs => (readItems item cs.length [] cs).map fun r => (.arr r.1, r.2)

def readObject (name : Reader String) (item : String → Reader Json) : Reader Json := fun cs =>
  match skipSpaces cs with
  | '\x7d' :: rest => some (.obj [], rest)
  | cs => (readMembers name item cs.length [] cs).map fun r => (.obj r.1, r.2)

/-- A value that is neither a list nor an object. -/
def readScalar (leaves : Leaves) : Reader Json
  | 'n' :: 'u' :: 'l' :: 'l' :: rest => some (.null, rest)
  | 't' :: 'r' :: 'u' :: 'e' :: rest => some (.bool true, rest)
  | 'f' :: 'a' :: 'l' :: 's' :: 'e' :: rest => some (.bool false, rest)
  | '"' :: rest => (leaves.text ('"' :: rest)).map fun r => (.str r.1, r.2)
  | cs => (leaves.number cs).map fun r => (.num r.1, r.2)

/-- A value with at most `depth` lists and objects around its innermost part. -/
def readValue (leaves : Leaves) : Nat → Reader Json
  | 0, cs =>
    match skipSpaces cs with
    | '[' :: _ => none
    | '\x7b' :: _ => none
    | cs => readScalar leaves cs
  | depth + 1, cs =>
    match skipSpaces cs with
    | '[' :: rest => readArray (readValue leaves depth) rest
    | '\x7b' :: rest => readObject leaves.text (fun _ => readValue leaves depth) rest
    | cs => readScalar leaves cs

/-- What a reader makes of a whole text. -/
def readWhole? (read : Reader Json) (text : String) : Option Json :=
  match read text.toList with
  | some (v, rest) => if (skipSpaces rest).isEmpty then some v else none
  | none => none

/-- A value whose members of undeclared names are checked for their form, however deep. -/
def readRecord (declared : List String) : Reader Json := fun cs =>
  match skipSpaces cs with
  | '\x7b' :: rest =>
    let member (key : String) : Reader Json :=
      if declared.contains key then readValue .exact (greatestDepth - 1)
      else readValue .formal cs.length
    readObject readQuoted? member rest
  | cs => readValue .exact greatestDepth cs

/-- The value of a text as a record with declared members. -/
def parseRecord? (declared : List String) (text : String) : Option Json :=
  readWhole? (readRecord declared) text

/-- The value of a text. -/
def parse? (text : String) : Option Json :=
  (readWhole? (readValue .exact greatestDepth) text).map canonical

end Json

end Roster
