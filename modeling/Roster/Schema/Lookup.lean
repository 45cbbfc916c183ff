import Roster.Schema.Registry

/-!
The traits behind a dotted attribute path, which a URN may qualify up to its last colon.
-/

namespace Roster

/-- A text before and after its last colon. -/
def splitLastColon? (cs : List Char) : Option (List Char × List Char) :=
  let tail := cs.reverse.takeWhile (· ≠ ':')
  match cs.reverse.dropWhile (· ≠ ':') with
  | _ :: front => some (front.reverse, tail.reverse)
  | [] => none

/-- The parts of a text between dots. -/
def splitDots (cs : List Char) : List (List Char) :=
  cs.splitOnP (· == '.')

/-- The definition that a list of names leads to, each among the sub-attributes of the one
before. -/
def descend? (attributes : List Attribute) : List String → Option Attribute
  | [] => none
  | [name] => findAttribute? attributes name
  | name :: rest => (findAttribute? attributes name).bind fun a => descend? a.subAttributes rest

/-- The traits of the attribute that a path names. -/
def Registry.lookup? (r : Registry) (kind : Kind) (path : String) : Option Traits := do
  let (attributes, rest) ← match splitLastColon? path.toList with
    | some (urn, rest) =>
      let urn := String.ofList urn
      if isCoreSchema urn then some (kind.attributes, rest)
      else (r.extension? kind urn).map fun s => (s.attributes, rest)
    | none => some (kind.attributes, path.toList)
  let a ← descend? attributes ((splitDots rest).map String.ofList)
  some a.traits

end Roster
