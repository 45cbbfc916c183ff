import Roster.Binary64.Shortest
import Roster.Json.Basic

/-!
The compact text of a JSON value: no blanks, the members in their order, and only quotes,
backslashes and control characters escaped.
-/

namespace Roster

def Number.toText : Number → String
  | .whole n => toString n
  | .binary x => x.toText

namespace Json

/-- One character inside a quoted text. -/
def escapeChar (c : Char) : String :=
  if c == '"' then "\\\""
  else if c == '\\' then "\\\\"
  else if c == '\n' then "\\n"
  else if c == '\r' then "\\r"
  else if c == '\t' then "\\t"
  else if c.toNat == 8 then "\\b"
  else if c.toNat == 12 then "\\f"
  else if c.toNat < 32 then "\\u" ++ hexText 4 c.toNat
  else c.toString

def quote (s : String) : String :=
  s.toList.foldl (fun text c => text ++ escapeChar c) "\"" ++ "\""

mutual

def toText (v : Json) : String :=
  match v with
  | .null => "null"
  | .bool b => if b then "true" else "false"
  | .num n => n.toText
  | .str s => quote s
  | .arr items => "[" ++ ",".intercalate (itemTexts items) ++ "]"
  | .obj members => "\x7b" ++ ",".intercalate (memberTexts members) ++ "\x7d"

def itemTexts (items : List Json) : List String :=
  match items with
  | [] => []
  | v :: rest => v.toText :: itemTexts rest

def memberTexts (members : List (String × Json)) : List String :=
  match members with
  | [] => []
  | (k, v) :: rest => (quote k ++ ":" ++ v.toText) :: memberTexts rest

end

end Json

end Roster
