import Roster.Proofs.Filter.Reading

/-!
The operand that the text of a filter begins with, and the same text without the schema of its
first path.
-/

namespace Roster

namespace Filter

/-- The operand that stands first in the text. -/
def leftmost : Filter → Filter
  | .and f _ => f.leftmost
  | .or f _ => f.leftmost
  | f => f

/-- The path of a comparison or a presence test. -/
def testPath? : Filter → Option AttributePath
  | .compare a _ _ => some a
  | .present a => some a
  | _ => none

/-- The filter with its first path read as a plain name. -/
def unqualified : Filter → Filter
  | .and f g => .and f.unqualified g
  | .or f g => .or f.unqualified g
  | .compare a op v => .compare { a with schema := none } op v
  | .present a => .present { a with schema := none }
  | f => f

theorem leftmost_of_isOperand {f : Filter} (h : f.isOperand = true) : f.leftmost = f := by
  cases f <;> simp_all [isOperand, leftmost]

theorem leftmost_of_testPath? {f : Filter} {a : AttributePath} (h : f.testPath? = some a) :
    f.leftmost = f := by
  cases f <;> cases h <;> rfl

theorem isOperand_leftmost (f : Filter) : f.leftmost.isOperand = true := by
  induction f <;> simp_all [leftmost, isOperand]

theorem testPath?_of_not_isOperand {f : Filter} (h : f.isOperand = false) :
    f.testPath? = none := by
  cases f <;> simp_all [testPath?, isOperand]

theorem wellFormed_testPath {f : Filter} {a : AttributePath} (h : f.WellFormed)
    (hpath : f.testPath? = some a) : a.WellFormed := by
  cases f with
  | compare b op v =>
    cases hpath
    exact h.1
  | present b =>
    cases hpath
    exact h
  | _ => cases hpath

/-- In bracket form no test has a sub-attribute. -/
theorem sub_testPath {f : Filter} {a : AttributePath} (h : f.bracketed = f)
    (hpath : f.testPath? = some a) : a.sub = none := by
  rw [Option.eq_none_iff_forall_ne_some]
  intro sub hsub
  cases f <;> cases hpath <;> simp [bracketed, hsub] at h

theorem WellFormed.leftmost {f : Filter} (h : f.WellFormed) : f.leftmost.WellFormed := by
  induction f with
  | and f g ihf _ => exact ihf h.2.2.1
  | or f g ihf _ => exact ihf h.2.1
  | _ => exact h

theorem bracketed_leftmost {f : Filter} (h : f.bracketed = f) :
    f.leftmost.bracketed = f.leftmost := by
  induction f with
  | and f g ihf _ =>
    simp only [bracketed, and.injEq] at h
    exact ihf h.1
  | or f g ihf _ =>
    simp only [bracketed, or.injEq] at h
    exact ihf h.1
  | _ => exact h

theorem mem_paths_of_testPath? {f : Filter} {a : AttributePath} (h : f.testPath? = some a) :
    a ∈ f.paths := by
  cases f <;> cases h <;> exact List.mem_singleton_self a

theorem paths_leftmost (f : Filter) : f.leftmost.paths ⊆ f.paths := by
  induction f with
  | and f g ihf _ => exact List.subset_append_of_subset_left g.paths ihf
  | or f g ihf _ => exact List.subset_append_of_subset_left g.paths ihf
  | _ => exact List.Subset.refl _

/-- What stands behind the first operand of a text: nothing, or a blank and the next word. -/
def Continues (f : Filter) (back : List Char) : Prop :=
  f.isOperand = true ∧ back = [] ∨
    f.isOperand = false ∧ ∃ c more, back = ' ' :: c :: more ∧ isBlank c = false

theorem Continues.append {f : Filter} {back : List Char} {c : Char} (h : Continues f back)
    (hc : isBlank c = false) (more : List Char) :
    ∃ d rest, back ++ ' ' :: c :: more = ' ' :: d :: rest ∧ isBlank d = false := by
  rcases h with ⟨-, rfl⟩ | ⟨-, d, rest, rfl, hd⟩
  · exact ⟨c, more, rfl, hc⟩
  · exact ⟨d, rest ++ ' ' :: c :: more, rfl, hd⟩

/-- The text of a filter begins with that of its first operand. -/
theorem toText_leftmost (f : Filter) : ∃ back,
    f.toText.toList = f.leftmost.toText.toList ++ back ∧ Continues f back := by
  induction f with
  | and f g ihf _ =>
    obtain ⟨back, htext, hback⟩ := ihf
    have hmore := hback.append (c := 'a') (by decide) ("nd ".toList ++ g.toText.toList)
    exact ⟨back ++ " and ".toList ++ g.toText.toList, by simp [toText, leftmost, htext],
      .inr ⟨rfl, by simpa using hmore⟩⟩
  | or f g ihf _ =>
    obtain ⟨back, htext, hback⟩ := ihf
    have hmore := hback.append (c := 'o') (by decide) ("r ".toList ++ g.toText.toList)
    exact ⟨back ++ " or ".toList ++ g.toText.toList, by simp [toText, leftmost, htext],
      .inr ⟨rfl, by simpa using hmore⟩⟩
  | _ => exact ⟨[], by simp [leftmost], .inl ⟨rfl, rfl⟩⟩

/-! ### Without the first schema -/

theorem isOr_unqualified (f : Filter) : f.unqualified.isOr = f.isOr := by
  cases f <;> rfl

theorem testPath?_unqualified (f : Filter) :
    f.unqualified.testPath? = f.testPath?.map fun a => { a with schema := none } := by
  cases f <;> rfl

theorem depth_unqualified (f : Filter) : f.unqualified.depth = f.depth := by
  induction f <;> simp_all [unqualified, depth]

theorem names_unqualified (f : Filter) :
    f.unqualified.paths.map (·.name) = f.paths.map (·.name) := by
  induction f <;> simp_all [unqualified, paths]

theorem WellFormed.unqualified {f : Filter} (h : f.WellFormed) : f.unqualified.WellFormed := by
  induction f with
  | compare a op v => exact ⟨⟨h.1.name, h.1.sub, by simp⟩, h.2⟩
  | present a =>
    have ha : a.WellFormed := h
    exact ⟨ha.name, ha.sub, by simp⟩
  | and f g ihf _ => exact ⟨(isOr_unqualified f).trans h.1, h.2.1, ihf h.2.2.1, h.2.2.2⟩
  | or f g ihf _ => exact ⟨h.1, ihf h.2.1, h.2.2⟩
  | _ => exact h

/-- The text of a filter is the schema of its first path and what remains without it. -/
theorem toText_unqualified {f : Filter} {a : AttributePath} {urn : String}
    (hpath : f.leftmost.testPath? = some a) (hurn : a.schema = some urn) :
    f.toText = urn ++ ":" ++ f.unqualified.toText := by
  induction f with
  | compare b op v =>
    cases hpath
    simp [toText, Filter.unqualified, AttributePath.toText, hurn, String.append_assoc]
  | present b =>
    cases hpath
    simp [toText, Filter.unqualified, AttributePath.toText, hurn, String.append_assoc]
  | and f g ihf _ => simp [toText, Filter.unqualified, ihf hpath, String.append_assoc]
  | or f g ihf _ => simp [toText, Filter.unqualified, ihf hpath, String.append_assoc]
  | _ => cases hpath

/-! ### The ends of a text -/

theorem endsVisible_qualified {cs : List Char} (hne : cs ≠ [])
    (h : cs.all isQualifiedChar = true) : EndsVisible cs :=
  endsVisible_all hne fun c hc => not_isBlank_of_isQualifiedChar (List.all_eq_true.mp h c hc)

theorem endsVisible_literal (v : Literal) : EndsVisible v.toText.toList := by
  cases v with
  | text s =>
    refine ⟨'"' :: s.toList.flatMap escapeLiteralChar, '"', ?_, by decide⟩
    simp [Literal.toText, quoteLiteral]
  | bool b => cases b <;> exact endsVisible_qualified (by decide) (by decide)
  | null => exact endsVisible_qualified (by decide) (by decide)
  | number d =>
    obtain ⟨c, cs, htext, -⟩ := toText_number d
    exact endsVisible_qualified (by simp [Literal.toText, htext]) (number_qualified d)

/-- The text of a filter ends with a character that is no blank. -/
theorem endsVisible_toText (f : Filter) : EndsVisible f.toText.toList := by
  induction f with
  | compare a op v =>
    rw [toText, String.toList_append]
    exact (endsVisible_literal v).append _
  | present a =>
    rw [toText, String.toList_append]
    exact .append ⟨" p".toList, 'r', rfl, by decide⟩ _
  | select a f _ =>
    rw [toText, String.toList_append]
    exact .append ⟨[], ']', rfl, by decide⟩ _
  | and f g _ ihg =>
    rw [toText, String.toList_append]
    exact ihg.append _
  | or f g _ ihg =>
    rw [toText, String.toList_append]
    exact ihg.append _
  | not f _ =>
    rw [toText, String.toList_append]
    exact .append ⟨[], ')', rfl, by decide⟩ _
  | group f _ =>
    rw [toText, String.toList_append]
    exact .append ⟨[], ')', rfl, by decide⟩ _

/-- A filter that begins with a test of an attribute writes a blank behind the path. -/
theorem toText_test {f : Filter} {a : AttributePath} (h : f.leftmost.testPath? = some a) :
    ∃ c tail, f.toText.toList = a.toText.toList ++ ' ' :: c :: tail ∧ isBlank c = false := by
  obtain ⟨back, htext, -⟩ := toText_leftmost f
  generalize f.leftmost = lead at h htext
  cases lead with
  | compare b op v =>
    cases h
    obtain ⟨c, cs, hword, hc⟩ : ∃ c cs, op.word.toList = c :: cs ∧ isBlank c = false := by
      cases op <;> exact ⟨_, _, rfl, by decide⟩
    exact ⟨c, cs ++ ' ' :: (v.toText.toList ++ back), by simp [htext, toText, hword], hc⟩
  | present b =>
    cases h
    exact ⟨'p', 'r' :: back, by simp [htext, toText], by decide⟩
  | _ => cases h

theorem head?_path {a : AttributePath} (h : a.WellFormed) (rest : List Char) :
    ∃ c, (a.toText.toList ++ rest).head? = some c ∧ isBlank c = false := by
  have hq := toText_qualifiedChars h
  cases htext : a.toText.toList with
  | nil => exact absurd htext (toText_ne_nil h)
  | cons c cs =>
    rw [htext, List.all_cons, Bool.and_eq_true] at hq
    exact ⟨c, rfl, not_isBlank_of_isQualifiedChar hq.1⟩

/-- The text of a filter begins with a character that is no blank. -/
theorem head?_toText {f : Filter} (h : f.WellFormed) :
    ∃ c, f.toText.toList.head? = some c ∧ isBlank c = false := by
  induction f with
  | compare a op v =>
    rw [← List.append_nil (toText _).toList, toText_compare]
    exact head?_path h.1 _
  | present a =>
    rw [← List.append_nil (toText _).toList, toText_present]
    exact head?_path h _
  | select a f _ =>
    rw [← List.append_nil (toText _).toList, toText_select]
    exact head?_path h.1 _
  | and f g ihf _ =>
    obtain ⟨c, hc, hblank⟩ := ihf h.2.2.1
    exact ⟨c, by simp [toText, hc], hblank⟩
  | or f g ihf _ =>
    obtain ⟨c, hc, hblank⟩ := ihf h.2.1
    exact ⟨c, by simp [toText, hc], hblank⟩
  | not f _ => exact ⟨'n', by simp [toText], by decide⟩
  | group f _ => exact ⟨'(', by simp [toText], by decide⟩

theorem trimmed_toText {f : Filter} (h : f.WellFormed) : Trimmed f.toText.toList := by
  obtain ⟨c, hc, hblank⟩ := head?_toText h
  refine (endsVisible_toText f).trimmed fun d hd => ?_
  cases hc.symm.trans hd
  exact hblank

/-! ### Reading a single test -/

/-- A chain reads nothing more, or it joins something. -/
theorem scanChain_stays {word : String} {join : Filter → Filter → Filter} {operand : Scan Filter}
    {fuel : Nat} {left f : Filter} {cs rest : List Char}
    (h : scanChain word join operand fuel left cs = .ok (f, rest)) :
    f = left ∧ rest = cs ∨ ∃ g i, f = join g i := by
  refine scanChain_keeps (p := fun f rest => f = left ∧ rest = cs ∨ ∃ g i, f = join g i) ?_
    (.inl ⟨rfl, rfl⟩) h
  intro g right cs more rest _ _ _
  exact .inr ⟨g, right, rfl⟩

/-- A chain that joins nothing is its first operand. -/
theorem scanJoined_first {word : String} {join : Filter → Filter → Filter} {operand : Scan Filter}
    {cs rest : List Char} {f : Filter} (hf : ∀ g h, f ≠ join g h)
    (h : scanJoined word join operand cs = .ok (f, rest)) : operand cs = .ok (f, rest) := by
  obtain ⟨⟨left, more⟩, hleft, h⟩ := bind_eq_ok.mp h
  rcases scanChain_stays h with ⟨rfl, rfl⟩ | ⟨g, i, hjoin⟩
  · exact hleft
  · exact absurd hjoin (hf g i)

theorem scanTest_path {a b : AttributePath} {cs rest : List Char} {f : Filter}
    (h : scanTest a cs = .ok (f, rest)) (hf : f.testPath? = some b) : b = a := by
  cases scanTest_iff.mp h with
  | present => exact (Option.some.inj hf).symm
  | compared => exact (Option.some.inj hf).symm

/-- A text that begins with a name and a blank, and is read as one test, is read by what stands
behind the name. -/
theorem parse_test {name : String} {rest : List Char} {f : Filter} {a : AttributePath}
    (hname : isAttributeName name.toList = true)
    (h : parse (String.ofList (name.toList ++ ' ' :: rest)) = .ok f) (hf : f.testPath? = some a) :
    sameName name "not" = false ∧
      ∃ more, scanTest (.ofName name) (' ' :: rest) = .ok (f, more) ∧ skipBlanks more = [] := by
  obtain ⟨-, more, hscan, hmore⟩ := parse_eq_ok.mp h
  -- a test is neither joined by `or` nor by `and`, so both chains hold one operand
  have hor : ∀ h i, f ≠ .or h i := by
    rintro h i rfl
    cases hf
  have hand : ∀ h i, f ≠ .and h i := by
    rintro h i rfl
    cases hf
  have hscan := scanJoined_first hand (scanJoined_first hor hscan)
  rw [String.toList_ofList] at hscan
  have hstop : Stops (' ' :: rest) := stops_cons rfl
  cases scanOperand_iff.mp hscan with
  | negated => cases hf
  | grouped => cases hf
  | atPath hkeyword hopen hread =>
    -- the name `not` would have been read as the keyword
    have hnot : sameName name "not" = false := by
      rw [Bool.eq_false_iff]
      intro hsame
      have hword : name.toList.map Char.toLower = "not".toList := sameName_iff.mp hsame
      rw [keyword?_anyCase hname hword hstop] at hkeyword
      cases hkeyword
    rw [skipBlanks_name hname] at hread
    simp only [scanAttribute, scanPath_name hname hstop] at hread
    exact ⟨hnot, more, hread, hmore⟩

/-- It is a test of that name. -/
theorem parse_testPath {name : String} {rest : List Char} {f : Filter} {a : AttributePath}
    (hname : isAttributeName name.toList = true)
    (h : parse (String.ofList (name.toList ++ ' ' :: rest)) = .ok f) (hf : f.testPath? = some a) :
    a = .ofName name ∧ sameName name "not" = false := by
  obtain ⟨hnot, more, hscan, -⟩ := parse_test hname h hf
  exact ⟨scanTest_path hscan hf, hnot⟩

end Filter

end Roster
