import Roster.Filter.Parser

/-!
A path or filter as a list of segments, and its normalized text, in which a colon follows a schema
URN and a dot every other segment.
-/

namespace Roster

/-- A segment names an attribute, with or without a filter on its values, or tests with a filter
what the segments before it have reached. Filters are kept as text. -/
inductive Segment where
  | name (name : String)
  | selection (name filter : String)
  | test (filter : String)
deriving DecidableEq, Repr, Inhabited

/-- Whether a text starts as a URN. -/
def isUrn (s : String) : Bool :=
  beginsWith "urn:".toList s.toList

theorem isUrn_congr {a b : String} (h : sameName a b = true) : isUrn a = isUrn b := by
  have hfold : a.toList.map Char.toLower = b.toList.map Char.toLower := sameName_iff.mp h
  simp only [isUrn, beginsWith, List.map_take, hfold]

namespace Segment

def name? : Segment → Option String
  | .name n => some n
  | .selection n _ => some n
  | .test _ => none

def filter? : Segment → Option String
  | .name _ => none
  | .selection _ f => some f
  | .test f => some f

/-- Whether the segment is the URN of an extension. -/
def isSchemaUrn : Segment → Bool
  | .name n => isUrn n
  | _ => false

def toText : Segment → String
  | .name n => n
  | .selection n f => n ++ "[" ++ f ++ "]"
  | .test f => f

/-- The parsed filter of the segment. -/
def parsedFilter (s : Segment) : Except ParseError (Option Filter) :=
  match s.filter? with
  | some text => (Filter.parse text).map some
  | none => .ok none

end Segment

structure Expression where
  segments : List Segment
deriving DecidableEq, Repr, Inhabited

namespace Expression

/-- The text of segments, each but the last with what separates it from the next. -/
def joinSegments : List Segment → String
  | [] => ""
  | [s] => s.toText
  | s :: rest => s.toText ++ (if s.isSchemaUrn then ":" else ".") ++ joinSegments rest

def normalized (e : Expression) : String :=
  joinSegments e.segments

/-- Whether the last segment has a filter. -/
def endsWithFilter (e : Expression) : Bool :=
  e.segments.getLast?.any fun s => s.filter?.isSome

end Expression

end Roster
