import Roster.Decimal.Binary
import Roster.Json.Basic
import Roster.Width

/-!
Filters over resources: comparisons, presence tests and selections of elements, joined by and, or
and not. The bracket form writes every dotted sub-attribute as a selection.
-/

namespace Roster

inductive CompareOp where
  | eq
  | ne
  | co
  | sw
  | ew
  | gt
  | ge
  | lt
  | le
deriving DecidableEq, Repr, Inhabited

namespace CompareOp

def word : CompareOp → String
  | .eq => "eq"
  | .ne => "ne"
  | .co => "co"
  | .sw => "sw"
  | .ew => "ew"
  | .gt => "gt"
  | .ge => "ge"
  | .lt => "lt"
  | .le => "le"

def all : List CompareOp := [.eq, .ne, .co, .sw, .ew, .gt, .ge, .lt, .le]

/-- The operator of a word in whatever case. -/
def ofWord? (s : String) : Option CompareOp :=
  all.find? fun op => sameName op.word s

/-- The operators that compare by order. -/
def isOrdering : CompareOp → Bool
  | .gt | .ge | .lt | .le => true
  | _ => false

/-- The operators that look for a part of a text. -/
def isSubstring : CompareOp → Bool
  | .co | .sw | .ew => true
  | _ => false

end CompareOp

/-- A character that may continue an attribute name. -/
def isNameChar (c : Char) : Bool :=
  isLetter c || isDigit c || c == '_' || c == '-'

/-- A character that may start an attribute name. -/
def isNameStart (c : Char) : Bool :=
  isLetter c || c == '$'

/-- Whether a text is an attribute name. -/
def isAttributeName : List Char → Bool
  | c :: rest => isNameStart c && rest.all isNameChar
  | [] => false

/-- An attribute, which a schema may qualify and a sub-attribute may narrow. -/
structure AttributePath where
  schema : Option String
  name : String
  sub : Option String
deriving DecidableEq, Repr, Inhabited

def AttributePath.ofName (name : String) : AttributePath := ⟨none, name, none⟩

/-- The value an attribute is compared with. -/
inductive Literal where
  | text (s : String)
  | bool (b : Bool)
  | number (d : Decimal)
  | null
deriving DecidableEq, Repr, Inhabited

/-- Equality of literals, numbers by value. -/
def Literal.same : Literal → Literal → Bool
  | .number a, .number b => a.same b
  | a, b => a == b

/-- The JSON value that a literal stands for. A whole number too large for 64 bits is its text. -/
def Literal.toJson : Literal → Json
  | .text s => .str s
  | .bool b => .bool b
  | .number d =>
    if d.isWhole then
      match signedWord? d.truncate with
      | some n => Json.ofInt n
      | none => .str d.toText
    else match d.toBinary? with
      | some x => .num (.binary x)
      | none => .null
  | .null => .null

inductive Filter where
  | compare (path : AttributePath) (op : CompareOp) (value : Literal)
  | present (path : AttributePath)
  | select (path : AttributePath) (inner : Filter)
  | and (left right : Filter)
  | or (left right : Filter)
  | not (inner : Filter)
  | group (inner : Filter)
deriving DecidableEq, Repr, Inhabited

namespace Filter

/-- Equality of filters, numbers by value. -/
def same : Filter → Filter → Bool
  | .compare a op v, .compare b oq w => a == b && op == oq && v.same w
  | .present a, .present b => a == b
  | .select a f, .select b g => a == b && f.same g
  | .and f g, .and h i => f.same h && g.same i
  | .or f g, .or h i => f.same h && g.same i
  | .not f, .not g => f.same g
  | .group f, .group g => f.same g
  | _, _ => false

/-- The filter with every dotted access `a.b` written as the selection `a[b]`. -/
def bracketed : Filter → Filter
  | .compare a op v =>
    match a.sub with
    | some sub => .select { a with sub := none } (.compare (.ofName sub) op v)
    | none => .compare a op v
  | .present a =>
    match a.sub with
    | some sub => .select { a with sub := none } (.present (.ofName sub))
    | none => .present a
  | .select a f => .select a f.bracketed
  | .and f g => .and f.bracketed g.bracketed
  | .or f g => .or f.bracketed g.bracketed
  | .not f => .not f.bracketed
  | .group f => .group f.bracketed

/-- The filter as an operand of `and`: an `or` goes into parentheses. -/
def groupedIfOr : Filter → Filter
  | .or f g => .group (.or f g)
  | f => f

/-- The names and values of a conjunction of equalities on plain names; none for any other
filter, or where a value is null. -/
def equalitySeeds? : Filter → Option (List (String × Literal))
  | .compare a .eq v =>
    if a.schema.isNone && a.sub.isNone && v != .null then some [(a.name, v)] else none
  | .and f g => do
    let seeds ← f.equalitySeeds?
    let more ← g.equalitySeeds?
    some (seeds ++ more)
  | .group f => f.equalitySeeds?
  | _ => none

theorem bracketed_bracketed (f : Filter) : f.bracketed.bracketed = f.bracketed := by
  induction f with
  | compare a op v =>
    cases h : a.sub <;> simp [bracketed, h, AttributePath.ofName]
  | present a =>
    cases h : a.sub <;> simp [bracketed, h, AttributePath.ofName]
  | select a f ih => simp [bracketed, ih]
  | and f g ihf ihg => simp [bracketed, ihf, ihg]
  | or f g ihf ihg => simp [bracketed, ihf, ihg]
  | not f ih => simp [bracketed, ih]
  | group f ih => simp [bracketed, ih]

end Filter

end Roster
