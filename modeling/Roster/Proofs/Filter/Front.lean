import Roster.Proofs.Filter.Detached

/-!
The front of a filter. A filter begins with the operand that its tree has leftmost, and an operand
with a parenthesis or with the path that it looks at.
-/

namespace Roster

namespace Filter

theorem scanChain_leftmost {word : String} (join : Filter → Filter → Filter)
    {operand : Scan Filter} (hjoin : ∀ f g, (join f g).leftmost = f.leftmost) {fuel : Nat}
    {left f : Filter} {xs ys : List Char}
    (h : scanChain word join operand fuel left xs = .ok (f, ys)) : f.leftmost = left.leftmost := by
  refine scanChain_keeps (p := fun f _ => f.leftmost = left.leftmost) ?_ rfl h
  intro f right xs more ys _ _ hleft
  rw [hjoin, hleft]

theorem scanFilter_leftmost {nested : Scan Filter} {cs rest : List Char} {f : Filter}
    (h : scanFilter nested cs = .ok (f, rest)) :
    ∃ first left, scanOperand nested cs = .ok (first, left) ∧ f.leftmost = first.leftmost := by
  obtain ⟨⟨conjunction, behind⟩, hand, hor⟩ := bind_eq_ok.mp h
  obtain ⟨⟨first, left⟩, hfirst, hand⟩ := bind_eq_ok.mp hand
  have hdisjunction := scanChain_leftmost Filter.or (fun _ _ => rfl) hor
  have hconjunction := scanChain_leftmost Filter.and (fun _ _ => rfl) hand
  exact ⟨first, left, hfirst, hdisjunction.trans hconjunction⟩

/-- A name stands behind blanks, and no further character of a name stands behind it. -/
theorem scanName_split {cs rest : List Char} {name : String} (h : scanName cs = .ok (name, rest)) :
    skipBlanks cs = name.toList ++ rest ∧ isAttributeName name.toList = true ∧
      ∀ c ∈ rest.head?, isNameChar c = false := by
  have hname := scanName_gives h
  obtain ⟨c, more, hskip, hstart, rfl, rfl⟩ := scanName_iff.mp h
  exact ⟨by simp [hskip], hname, dropWhile_head isNameChar more⟩

theorem scanQualified_schema {cs rest : List Char} {a : AttributePath}
    (h : scanQualified cs = .ok (a, rest)) : a.schema ≠ none := by
  simp only [scanQualified] at h
  split at h <;> try cases h
  all_goals
    split at h
    case isFalse => cases h
    case isTrue =>
      cases h
      simp

/-- Behind the name that it looks at, a test begins with a blank. -/
theorem scanTest_head {a : AttributePath} {cs rest : List Char} {f : Filter}
    (h : scanTest a cs = .ok (f, rest)) (hstop : ∀ c ∈ cs.head?, isNameChar c = false) :
    ∃ c more, cs = c :: more ∧ isBlank c = true := by
  cases cs with
  | nil =>
    simp only [scanTest, keyword?_nil (show IsKeyword "pr" by decide)] at h
    cases h
  | cons c more =>
    refine ⟨c, more, rfl, ?_⟩
    rw [← Bool.not_eq_false]
    intro hblank
    have hletter : isLetter c = false := by
      rw [← Bool.not_eq_true]
      intro hletter
      have hname := isNameChar_of_isLetter hletter
      rw [hstop c rfl] at hname
      cases hname
    exact absurd h (scanTest_fails hblank hletter a more _)

theorem scanTest_testPath {a : AttributePath} {cs rest : List Char} {f : Filter}
    (h : scanTest a cs = .ok (f, rest)) : f.testPath? = some a := by
  cases scanTest_iff.mp h with
  | present => rfl
  | compared => rfl

/-- The path at the front of an operand is one of its filter. -/
theorem scanAttribute_path {nested : Scan Filter} {cs rest : List Char} {f : Filter}
    (h : scanAttribute nested cs = .ok (f, rest)) :
    ∃ a more, scanPath cs = .ok (a, more) ∧ a ∈ f.leftmost.paths := by
  cases scanAttribute_iff.mp h with
  | tested hpath hbracket htest =>
    refine ⟨_, _, hpath, ?_⟩
    have hpath := scanTest_testPath htest
    rw [leftmost_of_testPath? hpath]
    exact mem_paths_of_testPath? hpath
  | selected hpath hsub hinner hbehind =>
    refine ⟨_, _, hpath, ?_⟩
    cases behindSelection_iff.mp hbehind with
    | dotted => exact List.mem_cons_self
    | plain => exact List.mem_cons_self

/-- A path without a schema is a name, which a dot and another one may follow. -/
theorem scanPath_split {cs rest : List Char} {a : AttributePath} (h : scanPath cs = .ok (a, rest))
    (hschema : a.schema = none) : ∃ more, scanName (skipBlanks cs) = .ok (a.name, more) ∧
      match a.sub with
      | none => rest = more ∧ ∀ dotted, more ≠ '.' :: dotted
      | some sub => ∃ dotted, more = '.' :: dotted ∧ scanName dotted = .ok (sub, rest) := by
  cases scanPath_iff.mp h with
  | qualified hurn hread => exact absurd hschema (scanQualified_schema hread)
  | dotted hurn hname hsub => exact ⟨_, hname, _, rfl, hsub⟩
  | named hurn hname hdot => exact ⟨_, hname, rfl, hdot⟩

end Filter

end Roster
