/-!
References to variables in the text of settings. On each line the references that begin before its
first `#` are replaced, once, by what the environment has for them.
-/

namespace Roster

/-- The values of variables. -/
abbrev Environment := String → Option String

/-- A reference at the front of a text: the name in its braces, and the text behind it. -/
def reference? : List Char → Option (List Char × List Char)
  | '$' :: '\x7b' :: cs =>
    let name := cs.takeWhile (· != '\x7d')
    match cs.dropWhile (· != '\x7d') with
    | _ :: rest => if name.isEmpty then none else some (name, rest)
    | [] => none
  | _ => none

/-- Replaces the references of a line; the error is the name of a missing variable. -/
def expandLine (env : Environment) : Nat → List Char → Except String (List Char)
  | 0, cs => .ok cs
  | fuel + 1, cs =>
    match reference? cs with
    | some (name, rest) => do
      let name' := String.ofList name
      let value ← match env name' with
        | some value => Except.ok value.toList
        | none => Except.error name'
      let rest ← if name.contains '#' then .ok rest else expandLine env fuel rest
      .ok (value ++ rest)
    | none =>
      match cs with
      | [] => .ok []
      | c :: rest =>
        if c == '#' then .ok cs else (expandLine env fuel rest).map (c :: ·)

/-- The text before the first line end, and what is behind that; none where no line ends. -/
def splitLine? (cs : List Char) : Option (List Char × List Char) :=
  match cs.dropWhile (· != '\n') with
  | _ :: rest => some (cs.takeWhile (· != '\n'), rest)
  | [] => none

/-- A line without the carriage return at its end. -/
def dropReturn (line : List Char) : List Char :=
  if line.getLast? == some '\r' then line.dropLast else line

/-- Replaces references line by line. -/
def expandLines (env : Environment) : Nat → List Char → Except String (List Char)
  | 0, cs => .ok cs
  | fuel + 1, cs =>
    match splitLine? cs with
    | none => expandLine env cs.length cs
    | some (line, rest) => do
      let line := dropReturn line
      let line ← expandLine env line.length line
      let rest ← expandLines env fuel rest
      .ok (line ++ '\n' :: rest)

/-- Replaces the references of a text. Lines end with a line feed alone. -/
def expandText (env : Environment) (text : String) : Except String String :=
  (expandLines env (text.length + 1) text.toList).map String.ofList

end Roster
