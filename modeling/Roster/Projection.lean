import Roster.Expression.Parser

/-!
The part of a resource that a client is shown. Each attribute says when it is returned, and the
client names attributes to show or to leave out.
-/

namespace Roster

/-- An entry of a list of attributes: a whole extension, or an attribute of the core schema or of an
extension with, perhaps, one of its sub-attributes. -/
inductive Selector where
  | extension (urn : String)
  | attribute (extension : Option String) (name : String) (sub : Option String)
deriving DecidableEq, Repr, Inhabited

namespace Selector

/-- Whether the entry lies in an extension, or in the core schema where there is none. -/
def isWithin (extension : Option String) : Selector → Bool
  | .extension urn => extension.any (sameName urn)
  | .attribute none _ _ => extension.isNone
  | .attribute (some urn) _ _ => extension.any (sameName urn)

def isWhole : Selector → Bool
  | .extension _ => true
  | .attribute _ _ _ => false

/-- Whether the entry names an attribute, whole or in part. -/
def names (name : String) : Selector → Bool
  | .extension _ => false
  | .attribute _ n _ => sameName n name

def sub? : Selector → Option String
  | .extension _ => none
  | .attribute _ _ sub => sub

/-- The entry of an expression; none for one that names no attribute of the kind. -/
def ofExpression? (r : Registry) (kind : Kind) (e : Expression) : Option Selector := do
  let (owner, rest) ← match e.segments with
    | .name urn :: rest =>
      if isUrn urn then (r.extension? kind urn).map fun s => (some s.id, rest)
      else some (none, .name urn :: rest)
    | rest => some (none, rest)
  match owner, rest with
  | some urn, [] => some (.extension urn)
  | owner, [.name name] => some (.attribute owner name none)
  | owner, [.name name, .name sub] => some (.attribute owner name (some sub))
  | _, _ => none

end Selector

/-- The parts of a text between commas. -/
def splitCommas (cs : List Char) : List (List Char) :=
  cs.splitOnP (· == ',')

/-- The entries of a list of paths. Unknown names are left out. -/
def selectorsOf (r : Registry) (kind : Kind) : List String → Except ExpressionError (List Selector)
  | [] => .ok []
  | path :: rest =>
    match Expression.parse r path with
    | .error (.unknownAttribute _) => selectorsOf r kind rest
    | .error e => .error e
    | .ok e => (selectorsOf r kind rest).map ((Selector.ofExpression? r kind e).toList ++ ·)

/-- The entries of a text with commas between them. -/
def parseSelectors (r : Registry) (kind : Kind) (text : String) :
    Except ExpressionError (List Selector) :=
  let names := ((splitCommas text.toList).map trimBlanks).filter fun name => !name.isEmpty
  selectorsOf r kind (names.map String.ofList)

/-- The attributes to show, all if none are listed, and those to leave out. -/
structure Projection where
  included : Option (List Selector)
  excluded : List Selector
deriving DecidableEq, Repr, Inhabited

namespace Projection

/-- Reads the two lists. The attributes to leave out do not count where others are listed. -/
def parse (r : Registry) (kind : Kind) (attributes excluded : Option String) :
    Except ExpressionError Projection :=
  match attributes, excluded with
  | some text, excluded =>
    if isBlankText text then
      match excluded with
      | some text => (parseSelectors r kind text).map fun excluded => ⟨none, excluded⟩
      | none => .ok ⟨none, []⟩
    else (parseSelectors r kind text).map fun included => ⟨some included, []⟩
  | none, some text => (parseSelectors r kind text).map fun excluded => ⟨none, excluded⟩
  | none, none => .ok ⟨none, []⟩

def isDefault (p : Projection) : Bool :=
  p.included.isNone && p.excluded.isEmpty

/-! ### Sub-attributes -/

/-- The members of a complex value that are always returned, or wanted and not withheld. -/
def keepMembers (a : Attribute) (wanted : String → Bool) (ms : Members Json) : Members Json :=
  ms.filter fun m =>
    match (a.subAttribute? m.1).map Attribute.returned with
    | some .never => false
    | some .always => true
    | _ => wanted m.1

/-- A complex value, or a list of them, with its wanted sub-attributes; none when nothing is
left. -/
def keepSubs? (a : Attribute) (wanted : String → Bool) (v : Json) : Option Json :=
  match v with
  | .obj members =>
    let kept := keepMembers a wanted members
    if kept.isEmpty then none else some (.obj kept)
  | .arr items =>
    let kept := items.filterMap fun item =>
      match item with
      | .obj members =>
        let kept := keepMembers a wanted members
        if kept.isEmpty then none else some (.obj kept)
      | item => some item
    if kept.isEmpty then none else some (.arr kept)
  | v => some v

/-- The value without the sub-attributes that are never returned. -/
def withoutNever (a : Attribute) (v : Json) : Json :=
  if a.subAttributes.all fun s => s.returned != .never then v
  else (keepSubs? a (fun _ => true) v).getD .null

/-- The sub-attributes that entries name; none where one names the whole attribute. -/
def subNames? (entries : List Selector) : Option (List String) :=
  if entries.any fun s => s.sub?.isNone then none else some (entries.filterMap Selector.sub?)

/-! ### Attributes -/

/-- The value of an attribute that is listed, or of any when none are, with the parts to leave out
taken away. -/
def leaveOut (p : Projection) (extension : Option String) (a : Attribute) (v : Json) :
    Option Json :=
  match p.excluded.filter fun s => s.isWithin extension && s.names a.name with
  | [] => some (withoutNever a v)
  | entries =>
    match subNames? entries with
    | none => none
    | some subs => keepSubs? a (fun name => !subs.any (sameName · name)) v

/-- The shown value of a member, which `attributes` define. -/
def member? (p : Projection) (extension : Option String) (attributes : List Attribute)
    (key : String) (v : Json) : Option Json :=
  match findAttribute? attributes key with
  | none => if p.included.isNone then some v else none
  | some a =>
    match a.returned, p.included with
    | .never, _ => none
    | .always, _ => some (withoutNever a v)
    | _, some included =>
      match included.filter fun s => s.isWithin extension && s.names a.name with
      | [] => none
      | entries =>
        match subNames? entries with
        | some subs => keepSubs? a (fun name => subs.any (sameName · name)) v
        | none => p.leaveOut extension a v
    | .onRequest, none => none
    | .byDefault, none => p.leaveOut extension a v

/-- The shown part of an extension. -/
def extension? (p : Projection) (urn : String) (attributes : List Attribute) (v : Json) :
    Option Json :=
  let isWholeOf (s : Selector) : Bool := s.isWithin (some urn) && s.isWhole
  if p.excluded.any isWholeOf then none
  else if p.included.any fun included => !included.any (·.isWithin (some urn)) then none
  else match v with
    | .obj members =>
      let inner : Projection := if p.included.any fun included => included.any isWholeOf then
        { p with included := none } else p
      let shown := members.filterMap fun m =>
        (inner.member? (some urn) attributes m.1 m.2).map (m.1, ·)
      if shown.isEmpty then none else some (.obj shown)
    | v => some v

/-- The shown part of a resource. Its schemas are always shown. -/
def apply (p : Projection) (r : Registry) (kind : Kind) (resource : Json) : Json :=
  match resource with
  | .obj members => .obj <| members.filterMap fun m =>
      if m.1 = "schemas" then some m
      else
        let shown := match r.extension? kind m.1 with
          | some s => p.extension? m.1 s.attributes m.2
          | none => p.member? none kind.attributes m.1 m.2
        shown.map (m.1, ·)
  | v => v

end Projection

end Roster
