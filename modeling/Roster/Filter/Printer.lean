import Roster.Filter.Basic
import Roster.Text.Printable

/-!
The text of a filter, and the form that shows its structure.
-/

namespace Roster

def AttributePath.toText (a : AttributePath) : String :=
  let schema := match a.schema with
    | some urn => urn ++ ":"
    | none => ""
  let sub := match a.sub with
    | some name => "." ++ name
    | none => ""
  schema ++ a.name ++ sub

/-- One character of a quoted literal. -/
def escapeLiteralChar : Char → List Char
  | '"' => ['\\', '"']
  | '\\' => ['\\', '\\']
  | '\n' => ['\\', 'n']
  | '\t' => ['\\', 't']
  | '\r' => ['\\', 'r']
  | c => [c]

def quoteLiteral (s : String) : String :=
  "\"" ++ String.ofList (s.toList.flatMap escapeLiteralChar) ++ "\""

def Literal.toText : Literal → String
  | .text s => quoteLiteral s
  | .bool b => if b then "true" else "false"
  | .number d => d.toText
  | .null => "null"

/-- The text of a filter. Only groups write parentheses, so the tree must hold them where the
text needs them. -/
def Filter.toText : Filter → String
  | .compare a op v => a.toText ++ " " ++ op.word ++ " " ++ v.toText
  | .present a => a.toText ++ " pr"
  | .select a f => a.toText ++ "[" ++ f.toText ++ "]"
  | .and f g => f.toText ++ " and " ++ g.toText
  | .or f g => f.toText ++ " or " ++ g.toText
  | .not f => "not (" ++ f.toText ++ ")"
  | .group f => "(" ++ f.toText ++ ")"

/-- A record with its type and fields named. -/
def inspectFields (name : String) (fields : List (String × String)) : String :=
  name ++ " \x7b " ++ ", ".intercalate (fields.map fun f => f.1 ++ ": " ++ f.2) ++ " \x7d"

def inspectOption : Option String → String
  | some s => "Some(" ++ inspect s ++ ")"
  | none => "None"

def AttributePath.inspect (a : AttributePath) : String :=
  inspectFields "AttrPath"
    [("schema", inspectOption a.schema), ("attr", Roster.inspect a.name),
      ("sub_attr", inspectOption a.sub)]

def Literal.inspect : Literal → String
  | .text s => "String(" ++ Roster.inspect s ++ ")"
  | .bool b => "Bool(" ++ (if b then "true" else "false") ++ ")"
  | .number d => "Number(" ++ d.toText ++ ")"
  | .null => "Null"

/-- The filter's structure on one line. -/
def Filter.inspect : Filter → String
  | .compare a op v => inspectFields "Comparison"
      [("attr", a.inspect), ("op", op.word.capitalize), ("value", v.inspect)]
  | .present a => inspectFields "Presence" [("attr", a.inspect)]
  | .select a f => inspectFields "ValuePath" [("attr", a.inspect), ("filter", f.inspect)]
  | .and f g => "And(" ++ f.inspect ++ ", " ++ g.inspect ++ ")"
  | .or f g => "Or(" ++ f.inspect ++ ", " ++ g.inspect ++ ")"
  | .not f => "Not(" ++ f.inspect ++ ")"
  | .group f => "Group(" ++ f.inspect ++ ")"

end Roster
