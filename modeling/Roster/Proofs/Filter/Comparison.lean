import Roster.Proofs.Filter.Exact
import Roster.Proofs.Filter.Carrying
import Roster.Proofs.Filter.Leading

/-!
One comparison as a text: a path, an operator and a value in whatever spelling. It is read as that
comparison under conditions that do not depend on the operator.
-/

namespace Roster

namespace Filter

/-! ### The value -/

theorem endsVisible_suffix {xs ys : List Char} (h : EndsVisible ys) (hsuffix : ys <:+ xs) :
    EndsVisible xs := by
  obtain ⟨front, rfl⟩ := hsuffix
  exact h.append front

theorem keyword?_visible {word : String} (hw : IsKeyword word) {cs : List Char}
    (h : keyword? word cs = some []) : EndsVisible cs := by
  obtain ⟨front, hcs, hfront, -⟩ := keyword?_iff.mp h
  rw [List.append_nil] at hcs
  have hvisible : EndsVisible front := by
    refine endsVisible_all (hw.written hfront) fun c hc => ?_
    exact not_isBlank_of_isQualifiedChar (isQualifiedChar_of_isNameChar
      (isNameChar_of_isLetter (hw.letter hfront hc)))
  exact endsVisible_suffix hvisible (hcs ▸ skipBlanks_suffix cs)

theorem scanNumber_visible {cs : List Char} {v : Literal} (hne : cs ≠ [])
    (h : scanNumber cs = .ok (v, [])) : EndsVisible cs := by
  have hpiece := piece_plainNumber.thenTake piece_exponent
  obtain ⟨d, -, -, hdrop⟩ := scanNumber_iff.mp h
  have hlength : cs.length ≤ (numberToken cs).1.length := List.drop_eq_nil_iff.mp hdrop
  rw [numberToken_eq] at hlength
  have hall := (hpiece.isPrefix cs).eq_of_length_le hlength
  refine endsVisible_all hne fun c hc => ?_
  apply hpiece.visible cs c
  rw [hall]
  exact hc

theorem wordOr_visible {word : String} {v w : Literal} {scan : Scan Literal} {cs : List Char}
    (hw : IsKeyword word) (hscan : scan cs = .ok (w, []) → EndsVisible cs)
    (h : wordOr word v scan cs = .ok (w, [])) : EndsVisible cs := by
  rcases wordOr_iff.mp h with ⟨hword, -⟩ | ⟨-, hread⟩
  · exact keyword?_visible hw hword
  · exact hscan hread

theorem scanBare_visible {cs : List Char} {v : Literal} (h : scanBare cs = .ok (v, [])) :
    EndsVisible cs := by
  refine wordOr_visible (by decide) (wordOr_visible (by decide) (wordOr_visible (by decide) ?_)) h
  intro h
  obtain ⟨⟨c, hc, -⟩, hread⟩ := scanDigits_iff.mp h
  refine scanNumber_visible ?_ hread
  rintro rfl
  cases hc

/-- A value that takes up all of a text ends with no blank. -/
theorem scanLiteral_visible {cs : List Char} {v : Literal} (h : scanLiteral cs = .ok (v, [])) :
    EndsVisible cs := by
  refine endsVisible_suffix ?_ (skipBlanks_suffix cs)
  cases scanLiteral_iff.mp h with
  | quoted hquote hread =>
    obtain ⟨⟨front, rfl⟩, -⟩ := scanText_behind hread
    exact ⟨'"' :: front, '"', hquote, by decide⟩
  | bare hquote hread => exact scanBare_visible hread

/-! ### Texts that are no test -/

theorem skipBlanks_urn {cs : List Char} (h : beginsWith "urn:".toList cs = true) :
    ∃ c rest, cs = c :: rest ∧ isBlank c = false ∧ c.toLower = 'u' := by
  obtain ⟨scheme, rest, rfl, hletters, hscheme⟩ := urn_front h
  cases scheme with
  | nil => cases hscheme
  | cons c scheme =>
    rw [List.all_cons, Bool.and_eq_true] at hletters
    have hq := isQualifiedChar_of_isNameChar (isNameChar_of_isLetter hletters.1)
    exact ⟨c, scheme ++ ':' :: rest, rfl, not_isBlank_of_isQualifiedChar hq,
      (List.cons.inj hscheme).1⟩

/-- A URN is the beginning of a test or a selection. -/
theorem scanOperand_urn (nested : Scan Filter) {cs : List Char}
    (h : beginsWith "urn:".toList cs = true) :
    scanOperand nested cs = scanAttribute nested cs ∧ scanPath cs = scanQualified cs := by
  obtain ⟨c, rest, rfl, hblank, hlower⟩ := skipBlanks_urn h
  have hnot : keyword? "not" (c :: rest) = none :=
    keyword?_other (by decide) hblank (by simp [hlower])
  have hparen : c ≠ '(' := by
    rintro rfl
    exact absurd hlower (by decide)
  constructor
  · simp [scanOperand, hnot, skipBlanks_cons rest hblank, hparen]
  · simp only [scanPath, skipBlanks_cons rest hblank, h, if_true]

/-- A test begins with a letter. -/
theorem scanTest_fails {c : Char} (hblank : isBlank c = false) (hletter : isLetter c = false)
    (a : AttributePath) (cs : List Char) : Fails (scanTest a (c :: cs)) := by
  have hpr : keyword? "pr" (c :: cs) = none := by
    refine keyword?_other (by decide) hblank fun hhead => ?_
    have hp : isLetter c.toLower = true := by
      rw [← Option.some.inj hhead]
      decide
    rw [isLetter_toLower, hletter] at hp
    cases hp
  have hempty : (c :: cs).takeWhile isLetter = [] := by simp [hletter]
  simp only [scanTest, hpr, scanOperator, skipBlanks_cons cs hblank, hempty]
  exact (fails_error _).bind _

/-- No operand begins with a bracket. -/
theorem scanOperand_bracket_fails (nested : Scan Filter) (cs : List Char) :
    Fails (scanOperand nested ('[' :: cs)) := by
  have hskip := skipBlanks_cons cs (show isBlank '[' = false by decide)
  have hnot : keyword? "not" ('[' :: cs) = none :=
    keyword?_other (by decide) (by decide) (by decide)
  simp only [scanOperand, hnot, hskip, scanAttribute, scanPath]
  exact ((fails_error _).bind _).bind _

/-! ### The comparison -/

/-- An operand with nothing behind it but what closes is the filter. -/
theorem scanFilter_operand {nested : Scan Filter} {cs rest : List Char} {f : Filter}
    (h : scanOperand nested cs = .ok (f, rest)) (hr : Closes rest) :
    scanFilter nested cs = .ok (f, rest) := by
  have hand : scanJoined "and" .and (scanOperand nested) cs = .ok (f, rest) :=
    (Reaches.first h).last (hr.keyword?_none (by decide))
  exact (Reaches.first hand).last (hr.keyword?_none (by decide))

/-- The text of a comparison whose value is spelled in some way. -/
def comparisonText (path : String) (op : CompareOp) (value : String) : String :=
  path ++ " " ++ op.word ++ " " ++ value

theorem comparisonText_toList (path : String) (op : CompareOp) (value : String) :
    (comparisonText path op value).toList =
      path.toList ++ ' ' :: (op.word.toList ++ ' ' :: value.toList) := by
  simp [comparisonText]

variable {a : AttributePath} {value : String} {v : Literal}

/-- A comparison is read as itself unless its text is too long or its path is the name `not`. -/
theorem parse_comparison (h : a.WellFormed) (hv : scanLiteral value.toList = .ok (v, []))
    (op : CompareOp) (f : Filter) :
    parse (comparisonText a.toText op value) = .ok f ↔
      utf8Length (comparisonText a.toText op value).toList ≤ greatestLength ∧
        a.isNot = false ∧ f = .compare a op v := by
  rw [parse_eq_ok]
  refine and_congr_right fun _ => ?_
  rw [comparisonText_toList]
  cases hnot : a.isNot with
  | true =>
    have hfails : Fails (scanOperand (scanWithin greatestDepth)
        (a.toText.toList ++ ' ' :: (op.word.toList ++ ' ' :: value.toList))) := by
      refine scanOperand_keyword h hnot (stops_cons rfl) fun more => ?_
      cases op <;> rintro ⟨⟩
    simp only [Bool.true_eq_false, false_and, iff_false]
    rintro ⟨rest, hscan, -⟩
    exact (hfails.bind _).bind _ _ hscan
  | false =>
    have htest : scanOperand (scanWithin greatestDepth)
        (a.toText.toList ++ ' ' :: (op.word.toList ++ ' ' :: value.toList)) =
          .ok (.compare a op v, []) := by
      have hskip : scanLiteral (' ' :: value.toList) = .ok (v, []) := by
        rw [← scanLiteral_skip, skipBlanks_space, scanLiteral_skip, hv]
      rw [scanOperand_test h hnot]
      simp only [scanTest, keyword?_pr_operator, scanOperator_word, hskip, bind, Except.bind]
    have hscan : scanWithin (greatestDepth + 1)
        (a.toText.toList ++ ' ' :: (op.word.toList ++ ' ' :: value.toList)) =
          .ok (.compare a op v, []) := scanFilter_operand htest closes_nil
    rw [hscan]
    constructor
    · rintro ⟨rest, hrest, -⟩
      cases hrest
      exact ⟨rfl, rfl⟩
    · rintro ⟨-, rfl⟩
      exact ⟨[], rfl, rfl⟩

end Filter

end Roster
