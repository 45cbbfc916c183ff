import Roster.Instant.Parser
import Roster.Text.Ascii
import Roster.Toml.Basic

/-!
Reading a document: comments, tables and arrays of tables with headers, dotted and quoted keys, and
values, of which lists and inline tables may hold others, 80 deep at most.
-/

namespace Roster

namespace Toml

/-- A reader takes something off the front of a text. -/
abbrev Reader (α : Type) := List Char → Option (α × List Char)

/-! ### Blanks and comments -/

def skipGap (cs : List Char) : List Char :=
  cs.dropWhile fun c => c == ' ' || c == '\t'

/-- The text behind a line end. -/
def lineEnd? : List Char → Option (List Char)
  | '\n' :: rest => some rest
  | '\r' :: '\n' :: rest => some rest
  | _ => none

/-- A character that may stand in a comment or a quoted text. -/
def isPlain (c : Char) : Bool :=
  c == '\t' || (32 ≤ c.toNat && c.toNat ≠ 127)

/-- The text behind a comment, if there is one. -/
def skipComment : List Char → List Char
  | '#' :: rest => rest.dropWhile isPlain
  | cs => cs

/-- The text behind the rest of a line that holds nothing but a comment. -/
def closeLine? (cs : List Char) : Option (List Char) :=
  match skipComment (skipGap cs) with
  | [] => some []
  | cs => lineEnd? cs

/-- The text behind blanks, comments and line ends. -/
def skipLines : Nat → List Char → List Char
  | 0, cs => cs
  | fuel + 1, cs =>
    let cs := skipComment (skipGap cs)
    match lineEnd? cs with
    | some rest => skipLines fuel rest
    | none => cs

/-! ### Texts -/

/-- A number of hexadecimal digits, as a character. -/
def readCode? (digits : Nat) : Reader Char := fun cs =>
  let front := cs.take digits
  if front.length < digits then none
  else do
    let values ← front.mapM hexValue?
    let code := values.foldl (fun n d => n * 16 + d) 0
    if code.isValidChar then some (Char.ofNat code, cs.drop digits) else none

/-- What follows the backslash of an escape. -/
def readEscape? : Reader Char
  | 'b' :: rest => some (Char.ofNat 8, rest)
  | 't' :: rest => some ('\t', rest)
  | 'n' :: rest => some ('\n', rest)
  | 'f' :: rest => some (Char.ofNat 12, rest)
  | 'r' :: rest => some ('\r', rest)
  | 'e' :: rest => some (Char.ofNat 27, rest)
  | '"' :: rest => some ('"', rest)
  | '\\' :: rest => some ('\\', rest)
  | 'x' :: rest => readCode? 2 rest
  | 'u' :: rest => readCode? 4 rest
  | 'U' :: rest => readCode? 8 rest
  | _ => none

/-- The rest of a text in quotes on one line. -/
def readBasic? : Nat → List Char → Reader String
  | 0, _, _ => none
  | fuel + 1, done, cs =>
    match cs with
    | '"' :: rest => some (String.ofList done.reverse, rest)
    | '\\' :: rest =>
      match readEscape? rest with
      | some (c, rest) => readBasic? fuel (c :: done) rest
      | none => none
    | c :: rest => if isPlain c then readBasic? fuel (c :: done) rest else none
    | [] => none

/-- The rest of a text in apostrophes on one line. -/
def readLiteral? (cs : List Char) : Option (String × List Char) :=
  let body := cs.takeWhile fun c => isPlain c && c != '\''
  match cs.drop body.length with
  | '\'' :: rest => some (String.ofList body, rest)
  | _ => none

/-- The text behind a backslash that ends a line: blanks and line ends are passed over. -/
def continued? (cs : List Char) : Option (List Char) :=
  (lineEnd? (skipGap cs)).map fun rest =>
    rest.dropWhile fun c => c == ' ' || c == '\t' || c == '\n' || c == '\r'

/-- The rest of a text over several lines, which ends at three quotes. One or two more belong to
it; `escapes` says whether a backslash is one. -/
def readLong? (quote : Char) (escapes : Bool) : Nat → List Char → Reader String
  | 0, _, _ => none
  | fuel + 1, done, cs =>
    match cs with
    | [] => none
    | c :: rest =>
      if c == quote then
        let count := (cs.takeWhile (· == quote)).length
        if count < 3 then readLong? quote escapes fuel (c :: done) rest
        else if 5 < count then none
        else
          let body := List.replicate (count - 3) quote ++ done
          some (String.ofList body.reverse, cs.drop count)
      else if c == '\\' && escapes then
        match continued? rest with
        | some rest => readLong? quote escapes fuel done rest
        | none =>
          match readEscape? rest with
          | some (c, rest) => readLong? quote escapes fuel (c :: done) rest
          | none => none
      else if isPlain c || c == '\n' || (c == '\r' && (lineEnd? cs).isSome) then
        readLong? quote escapes fuel (c :: done) rest
      else none

/-- A text over several lines; a line end right after the opening quotes is passed over. -/
def readLines? (quote : Char) (escapes : Bool) (cs : List Char) : Option (String × List Char) :=
  readLong? quote escapes (cs.length + 1) [] ((lineEnd? cs).getD cs)

/-- A text in any of its forms. -/
def readText? : Reader String
  | '"' :: '"' :: '"' :: rest => readLines? '"' true rest
  | '"' :: rest => readBasic? (rest.length + 1) [] rest
  | '\'' :: '\'' :: '\'' :: rest => readLines? '\'' false rest
  | '\'' :: rest => readLiteral? rest
  | _ => none

/-! ### Numbers -/

/-- The value of digits of a base, which underscores may stand between. -/
def readDigits? (base : Nat) (cs : List Char) : Option Nat :=
  let digits := cs.filter (· != '_')
  let isApart := (cs.zip cs.tail).all fun p => !(p.1 == '_' && p.2 == '_')
  if digits.isEmpty || !isApart || cs.head? == some '_' || cs.getLast? == some '_' then none
  else do
    let values ← digits.mapM hexValue?
    if values.all (· < base) then some (values.foldl (fun n d => n * base + d) 0) else none

/-- A number in decimal digits, which starts with a zero only when it is zero. -/
def readDecimal? (cs : List Char) : Option Nat :=
  match cs with
  | ['0'] => some 0
  | '0' :: _ => none
  | cs => readDigits? 10 cs

/-- A number in one of the bases, however large. Only a decimal one may have a sign. -/
def readWhole? : List Char → Option Int
  | '0' :: 'x' :: digits => (readDigits? 16 digits).map Int.ofNat
  | '0' :: 'o' :: digits => (readDigits? 8 digits).map Int.ofNat
  | '0' :: 'b' :: digits => (readDigits? 2 digits).map Int.ofNat
  | '+' :: digits => (readDecimal? digits).map Int.ofNat
  | '-' :: digits => (readDecimal? digits).map fun n => -Int.ofNat n
  | digits => (readDecimal? digits).map Int.ofNat

/-- The digits and underscores at the front of a text. -/
def frontDigits (cs : List Char) : List Char :=
  cs.takeWhile fun c => isDigit c || c == '_'

/-- Whether a text is an exponent, its letter included. -/
def isExponent : List Char → Bool
  | c :: rest =>
    let digits := match rest with
      | '+' :: digits | '-' :: digits => digits
      | digits => digits
    (c == 'e' || c == 'E') && (readDigits? 10 digits).isSome
  | [] => false

/-- Whether a text is a number with a fraction or an exponent, an infinity or no number. -/
def isFraction (cs : List Char) : Bool :=
  let cs := match cs with
    | '+' :: rest | '-' :: rest => rest
    | rest => rest
  let whole := frontDigits cs
  cs == "inf".toList || cs == "nan".toList ||
    (readDecimal? whole).isSome &&
      match cs.drop whole.length with
      | '.' :: rest =>
        let places := frontDigits rest
        let rest := rest.drop places.length
        (readDigits? 10 places).isSome && (rest.isEmpty || isExponent rest)
      | rest => isExponent rest

/-! ### Dates and times -/

/-- The text behind a date. -/
def skipDate? (cs : List Char) : Option (List Char) := do
  let (year, rest) ← Instant.readNumber? 4 cs
  let rest ← Instant.expect? '-' rest
  let (month, rest) ← Instant.readNumber? 2 rest
  let rest ← Instant.expect? '-' rest
  let (day, rest) ← Instant.readNumber? 2 rest
  if Instant.Date.isValid ⟨year, month, day⟩ then some rest else none

/-- The text behind a time of day, whose seconds may be missing. -/
def skipTime? (cs : List Char) : Option (List Char) := do
  let (hour, rest) ← Instant.readNumber? 2 cs
  let rest ← Instant.expect? ':' rest
  let (minute, rest) ← Instant.readNumber? 2 rest
  if 23 < hour ∨ 59 < minute then none
  else match rest with
    | ':' :: rest =>
      let (second, rest) ← Instant.readNumber? 2 rest
      let (_, rest) ← Instant.readFraction? rest
      if second ≤ 60 then some rest else none
    | rest => some rest

/-- Whether a text is a date, a time of day, or both with or without an offset. -/
def isMoment (cs : List Char) : Bool :=
  match skipDate? cs with
  | none => skipTime? cs == some []
  | some [] => true
  | some (c :: rest) =>
    (c == 'T' || c == 't' || c == ' ') &&
      (skipTime? rest).any fun rest =>
        rest.isEmpty || (Instant.readOffset? rest).any fun r => r.2.isEmpty

/-! ### Keys and values -/

def isKeyChar (c : Char) : Bool :=
  isLetter c || isDigit c || c == '_' || c == '-'

/-- One part of a key. -/
def readKey? (cs : List Char) : Option (String × List Char) :=
  match cs with
  | '"' :: rest => readBasic? (rest.length + 1) [] rest
  | '\'' :: rest => readLiteral? rest
  | cs =>
    let name := cs.takeWhile isKeyChar
    if name.isEmpty then none else some (String.ofList name, cs.drop name.length)

/-- The parts of a dotted key, and the text behind it and its blanks. -/
def readKeys? : Nat → Reader (List String)
  | 0, _ => none
  | fuel + 1, cs => do
    let (key, rest) ← readKey? (skipGap cs)
    match skipGap rest with
    | '.' :: rest => (readKeys? fuel rest).map fun r => (key :: r.1, r.2)
    | rest => some ([key], rest)

/-- The characters that values without quotes are made of. -/
def frontWord (cs : List Char) : List Char :=
  cs.takeWhile fun c => isKeyChar c || c == '+' || c == '.' || c == ':'

/-- The word at the front of a text. A blank may part a date from a time of day. -/
def valueWord (cs : List Char) : List Char :=
  let word := frontWord cs
  match cs.drop word.length with
  | ' ' :: rest =>
    if skipDate? word == some [] && (rest.head?.any isDigit) then word ++ ' ' :: frontWord rest
    else word
  | _ => word

/-- A value that holds no others. -/
def readScalar? (cs : List Char) : Option (Toml × List Char) :=
  match readText? cs with
  | some (s, rest) => some (.text s, rest)
  | none =>
    let word := valueWord cs
    let rest := cs.drop word.length
    if word == "true".toList then some (.bool true, rest)
    else if word == "false".toList then some (.bool false, rest)
    else if isFraction word then some (.fraction (String.ofList word), rest)
    else if isMoment word then some (.moment (String.ofList word), rest)
    else (readWhole? word).map fun n => (.whole n, rest)

mutual

/-- A value that nests at most `depth` deep. -/
def readValue? (fuel depth : Nat) (cs : List Char) : Option (Toml × List Char) :=
  match fuel with
  | 0 => none
  | fuel + 1 =>
    match cs, depth with
    | '[' :: rest, depth + 1 => readItems? fuel depth [] rest
    | '\x7b' :: rest, depth + 1 =>
      match skipLines rest.length rest with
      | '\x7d' :: rest => some (.table .inline [], rest)
      | rest => readPairs? fuel depth [] rest
    | cs, _ => readScalar? cs

/-- The items of a list up to its closing bracket, behind those that are done. -/
def readItems? (fuel depth : Nat) (done : List Toml) (cs : List Char) :
    Option (Toml × List Char) :=
  match fuel with
  | 0 => none
  | fuel + 1 =>
    match skipLines cs.length cs with
    | ']' :: rest => some (.list done.reverse, rest)
    | cs => do
      let (value, rest) ← readValue? fuel depth cs
      match skipLines rest.length rest with
      | ']' :: rest => some (.list (value :: done).reverse, rest)
      | ',' :: rest => readItems? fuel depth (value :: done) rest
      | _ => none

/-- The pairs of an inline table up to its closing brace, the first one due. -/
def readPairs? (fuel depth : Nat) (members : Members Toml) (cs : List Char) :
    Option (Toml × List Char) :=
  match fuel with
  | 0 => none
  | fuel + 1 => do
    let (keys, rest) ← readKeys? (cs.length + 1) cs
    match rest with
    | '=' :: rest =>
      let (value, rest) ← readValue? fuel depth (skipGap rest)
      let members ← assign? members value keys
      match skipLines rest.length rest with
      | '\x7d' :: rest => some (.table .inline members, rest)
      | ',' :: rest =>
        match skipLines rest.length rest with
        | '\x7d' :: rest => some (.table .inline members, rest)
        | rest => readPairs? fuel depth members rest
      | _ => none
    | _ => none

end

/-- How deep values may nest. -/
def greatestDepth : Nat := 80

/-! ### Documents -/

/-- Reads the lines of a document into its members; `opened` is the table of the last header. -/
def readDocument? : Nat → List String → Members Toml → List Char → Option (Members Toml)
  | 0, _, _, _ => none
  | fuel + 1, opened, members, cs =>
    match skipLines cs.length cs with
    | [] => some members
    | '[' :: '[' :: rest => do
      let (keys, rest) ← readKeys? (rest.length + 1) rest
      match rest with
      | ']' :: ']' :: rest =>
        let rest ← closeLine? rest
        let members ← openElement? members keys
        readDocument? fuel keys members rest
      | _ => none
    | '[' :: rest => do
      let (keys, rest) ← readKeys? (rest.length + 1) rest
      match rest with
      | ']' :: rest =>
        let rest ← closeLine? rest
        let members ← openTable? members keys
        readDocument? fuel keys members rest
      | _ => none
    | cs => do
      let (keys, rest) ← readKeys? (cs.length + 1) cs
      match rest with
      | '=' :: rest =>
        let (value, rest) ← readValue? (2 * rest.length + 2) greatestDepth (skipGap rest)
        let rest ← closeLine? rest
        let members ← assignIn? members value keys opened
        readDocument? fuel opened members rest
      | _ => none

/-- The table that a document is. A byte order mark may come first. -/
def parse? (text : String) : Option Toml :=
  let cs := match text.toList with
    | '\uFEFF' :: rest => rest
    | cs => cs
  (readDocument? (cs.length + 1) [] [] cs).map (.table .header)

end Toml

end Roster
