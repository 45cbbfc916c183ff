import Roster.Query.Compile

/-!
The structure of an expression in lines of text, for someone who tries one out.
-/

namespace Roster

/-- Lines that explain an expression, and the error that ended them. -/
structure Explanation where
  lines : List String
  error : Option String
deriving DecidableEq, Repr, Inhabited

/-- The lines of a segment, which has an index. -/
def Segment.explain (s : Segment) (index : Nat) : List String :=
  let head := "[" ++ toString index ++ "] " ++ s.toText
  match s.parsedFilter with
  | .ok (some f) => [head, "    filter: " ++ f.inspect]
  | .ok none => [head]
  | .error e => [head, "    filter error: " ++ e.message]

/-- The lines of segments, the first of which has the index `start`. -/
def explainSegments : Nat → List Segment → List String
  | _, [] => []
  | start, s :: rest => s.explain start ++ explainSegments (start + 1) rest

/-- Explains a text, and compiles it for a kind if it ends with a filter. -/
def explain (r : Registry) (kind : Kind) (text : String) : Explanation :=
  match Expression.parse r text with
  | .error e => ⟨[], some ("Error: " ++ e.message)⟩
  | .ok e =>
    let lines := ("normalized: " ++ e.normalized) :: explainSegments 0 e.segments
    if e.endsWithFilter then
      match e.compile r kind with
      | .ok _ => ⟨lines ++ ["compiles against " ++ kind.name], none⟩
      | .error e => ⟨lines, some ("Error compiling against " ++ kind.name ++ ": " ++ e.message)⟩
    else ⟨lines, none⟩

end Roster
