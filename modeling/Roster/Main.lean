import Roster.Explain

/-!
The command line: `parse [--resource user|group] EXPRESSION` explains an expression.
-/

namespace Roster

/-- What the command line asks for. -/
structure Arguments where
  kind : Kind
  expression : Option String
deriving DecidableEq, Repr, Inhabited

namespace Arguments

def kindOf? (name : String) : Option Kind :=
  if name == "user" then some .user else if name == "group" then some .group else none

/-- Takes words one by one. Behind `--` all words are expressions. -/
def read? : Arguments → Bool → List String → Option Arguments
  | a, _, [] => some a
  | a, true, word :: rest =>
    if a.expression.isSome then none else read? { a with expression := some word } true rest
  | a, false, "--" :: rest => read? a true rest
  | _, false, ["--resource"] => none
  | a, false, "--resource" :: name :: rest =>
    (kindOf? name).bind fun kind => read? { a with kind } false rest
  | a, false, word :: rest =>
    if word.startsWith "-" || a.expression.isSome then none
    else read? { a with expression := some word } false rest

end Arguments

/-- What is written for wrong words. -/
def usage : String := "Usage: parse [--resource user|group] EXPRESSION"

end Roster

open Roster

def main (words : List String) : IO UInt32 := do
  let asked := match words with
    | "parse" :: rest => Arguments.read? ⟨.user, none⟩ false rest
    | _ => none
  match asked with
  | some ⟨kind, some expression⟩ =>
    let e := explain Registry.standard kind expression
    for line in e.lines do
      IO.println line
    match e.error with
    | some error =>
      IO.eprintln error
      return 1
    | none => return 0
  | _ =>
    IO.eprintln usage
    return 2
