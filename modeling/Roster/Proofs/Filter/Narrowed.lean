import Roster.Proofs.Filter.Front

/-!
A selection with a test behind its brackets, and the same test inside of them. Behind them it is
joined to the filter of the selection; inside, it is joined by the text to the filter in
parentheses.
-/

namespace Roster

namespace Filter

theorem depth_bracketed (f : Filter) : f.depth ≤ f.bracketed.depth := by
  induction f with
  | compare a op v => cases h : a.sub <;> simp [depth]
  | present a => cases h : a.sub <;> simp [depth]
  | select a f ih => simpa [bracketed, depth] using ih
  | and f g ihf ihg =>
    simp only [bracketed, depth]
    omega
  | or f g ihf ihg =>
    simp only [bracketed, depth]
    omega
  | not f ih => simpa [bracketed, depth] using ih
  | group f ih => simpa [bracketed, depth] using ih

theorem length_groupedIfOr (f : Filter) :
    utf8Length f.toText.toList ≤ utf8Length f.groupedIfOr.toText.toList := by
  cases f with
  | or f g =>
    simp only [groupedIfOr, toText, String.toList_append, utf8Length_append]
    omega
  | _ => exact le_rfl

theorem paths_groupedIfOr (f : Filter) : f.groupedIfOr.paths = f.paths := by
  cases f <;> rfl

theorem paths_of_testPath? {t : Filter} {a : AttributePath} (ht : t.testPath? = some a) :
    t.paths = [a] := by
  cases t <;> cases ht <;> rfl

theorem isOperand_of_testPath? {t : Filter} {a : AttributePath} (ht : t.testPath? = some a) :
    t.isOperand = true := by
  cases t <;> cases ht <;> rfl

/-- Whether a text within the limits is read back depends on its names alone. -/
theorem parse_names {f g : Filter} (hg : g.WellFormed)
    (hlength : utf8Length g.toText.toList ≤ greatestLength) (hdepth : g.depth ≤ greatestDepth)
    (hnames : (∀ a ∈ g.paths, a.isNot = false) ↔ ∀ a ∈ f.paths, a.isNot = false) (i : Filter) :
    parse g.toText = .ok i ↔ (∀ a ∈ f.paths, a.isNot = false) ∧ i = g := by
  rw [parse_toText hg, ← hnames]
  constructor
  · rintro ⟨-, hreadable, rfl⟩
    exact ⟨hreadable.names, rfl⟩
  · rintro ⟨hreadable, rfl⟩
    exact ⟨hlength, ⟨hdepth, hreadable⟩, rfl⟩

/-! ### A test by itself -/

/-- The text of a test: a name, and behind a blank what is asked of it. -/
structure IsTest (text : List Char) (name : String) (behind : List Char) (t : Filter) : Prop where
  text : text = name.toList ++ behind
  letters : isAttributeName name.toList = true
  notNot : sameName name "not" = false
  blank : ∃ c more, behind = c :: more ∧ isBlank c = true
  path : t.testPath? = some (.ofName name)
  scan : scanTest (.ofName name) behind = .ok (t, [])

/-- A text that is a test has nothing but a test in it. -/
theorem scanOperand_of_parse {text : String} {t : Filter} {a : AttributePath}
    (h : parse text = .ok t) (ht : t.testPath? = some a) : ∃ rest, skipBlanks rest = [] ∧
      keyword? "not" text.toList = none ∧
        scanAttribute (scanWithin greatestDepth) (skipBlanks text.toList) = .ok (t, rest) := by
  obtain ⟨-, rest, hscan, hrest⟩ := parse_eq_ok.mp h
  have hor : ∀ g i, t ≠ .or g i := by
    rintro g i rfl
    cases ht
  have hand : ∀ g i, t ≠ .and g i := by
    rintro g i rfl
    cases ht
  have hoperand := scanJoined_first hand (scanJoined_first hor hscan)
  refine ⟨rest, hrest, ?_⟩
  -- neither a negation nor a group is a test
  cases scanOperand_iff.mp hoperand with
  | negated => cases ht
  | grouped => cases ht
  | atPath hword hopen hread => exact ⟨hword, hread⟩

/-- What is read at an attribute as a test is read at the path that it looks at. -/
theorem scanAttribute_test {nested : Scan Filter} {cs rest : List Char} {t : Filter}
    {a : AttributePath} (h : scanAttribute nested cs = .ok (t, rest))
    (ht : t.testPath? = some a) :
    ∃ behind, scanPath cs = .ok (a, behind) ∧ scanTest a behind = .ok (t, rest) := by
  cases scanAttribute_iff.mp h with
  | tested hpath hbracket htest =>
    obtain rfl := Option.some.inj ((scanTest_testPath htest).symm.trans ht)
    exact ⟨_, hpath, htest⟩
  | selected hpath hsub hinner hbehind =>
    -- a selection is no test
    cases behindSelection_iff.mp hbehind with
    | dotted => cases ht
    | plain => cases ht

/-- The text of a test of a name, without blanks at its ends. -/
theorem isTest_of_parse {text name : String} {t : Filter} (htrim : Trimmed text.toList)
    (h : parse text = .ok t) (ht : t.testPath? = some (.ofName name)) :
    ∃ behind, IsTest text.toList name behind t := by
  obtain ⟨rest, hrest, hnot, hscan⟩ := scanOperand_of_parse h ht
  rw [skipBlanks_of_head htrim.first] at hscan
  obtain ⟨behind, hpath, hbehind⟩ := scanAttribute_test hscan ht
  obtain ⟨more, hname, hmore, -⟩ := scanPath_split hpath rfl
  subst hmore
  rw [skipBlanks_of_head htrim.first] at hname
  obtain ⟨htext, hletters, hstop⟩ := scanName_split hname
  rw [skipBlanks_of_head htrim.first] at htext
  obtain ⟨c, more, rfl, hc⟩ := scanTest_head hbehind hstop
  obtain rfl : rest = [] := by
    -- what is left over ends the text, which ends with no blank
    by_contra hne
    obtain ⟨front, hfront⟩ := (scanTest_carries _ hbehind).1
    obtain ⟨d, hd⟩ := List.getLast?_isSome.mpr hne |> Option.isSome_iff_exists.mp
    have hends : text.toList.getLast? = some d := by
      rw [htext, ← hfront, ← List.append_assoc, List.getLast?_append_of_ne_nil _ hne, hd]
    have hlast := htrim.last d hends
    rw [skipBlanks_eq_nil.mp hrest d (List.mem_of_getLast? hd)] at hlast
    cases hlast
  refine ⟨c :: more, htext, hletters, ?_, ⟨c, more, rfl, hc⟩, ht, hbehind⟩
  rw [← Bool.not_eq_true]
  intro hsame
  have hword : name.toList.map Char.toLower = "not".toList := sameName_iff.mp hsame
  have hstops : Stops (c :: more) := stops_cons (not_isQualifiedChar_of_isBlank hc)
  rw [htext, keyword?_anyCase hletters hword hstops] at hnot
  cases hnot

variable {cs behind inner rest s : List Char} {name : String} {f t : Filter} {a : AttributePath}

/-- It is the same in front of what closes. -/
theorem IsTest.closed (h : IsTest cs name behind t) (hs : Closes s) :
    scanTest (.ofName name) (behind ++ s) = .ok (t, s) := by
  simpa using (scanTest_carries _ h.scan).2 hs

theorem IsTest.stops (h : IsTest cs name behind t) (s : List Char) : Stops (behind ++ s) := by
  obtain ⟨c, more, rfl, hc⟩ := h.blank
  exact stops_cons (not_isQualifiedChar_of_isBlank hc)

theorem IsTest.operand (h : IsTest cs name behind t) (nested : Scan Filter) :
    scanOperand nested cs = .ok (t, []) := by
  have hwell := AttributePath.WellFormed.ofName h.letters
  have hstops : Stops behind := by simpa using h.stops []
  have htext : cs = (AttributePath.ofName name).toText.toList ++ behind := by
    rw [h.text, toText_localPart rfl]
    simp [localPart, AttributePath.ofName]
  have hnot : (AttributePath.ofName name).isNot = false := by
    simpa [AttributePath.isNot, AttributePath.ofName] using h.notNot
  rw [htext, scanOperand_path hwell hnot hstops]
  refine scanAttribute_iff.mpr (.tested (scanPath_toText hwell hstops) ?_ h.scan)
  obtain ⟨c, more, rfl, hc⟩ := h.blank
  rintro opened ⟨⟩
  exact absurd hc (by decide)

theorem IsTest.parse (h : IsTest cs name behind t) (hlen : utf8Length cs ≤ greatestLength) :
    parse (String.ofList cs) = .ok t := by
  refine parse_eq_ok.mpr ⟨by rwa [String.toList_ofList], [], ?_, rfl⟩
  rw [String.toList_ofList]
  exact scanFilter_operand (h.operand _) closes_nil

/-- The blanks behind the name do not matter. -/
theorem IsTest.spaced (h : IsTest cs name behind t) :
    IsTest (name.toList ++ ' ' :: trimBlanks behind) name (' ' :: trimBlanks behind) t ∧
      utf8Length (name.toList ++ ' ' :: trimBlanks behind) ≤ utf8Length cs := by
  have hvisible := scanTest_visible _ h.scan
  obtain ⟨c, more, rfl, hc⟩ := h.blank
  rw [hvisible.trimBlanks]
  refine ⟨⟨rfl, h.letters, h.notNot, ⟨_, _, rfl, by decide⟩, h.path, ?_⟩, ?_⟩
  · rw [← scanTest_skip, skipBlanks_space, skipBlanks_skipBlanks, scanTest_skip]
    exact h.scan
  · have hskip : skipBlanks (c :: more) = skipBlanks more := List.dropWhile_cons_of_pos hc
    obtain ⟨front, hfront⟩ := skipBlanks_suffix more
    have hlength := congrArg utf8Length hfront
    have hpositive := c.utf8Size_pos
    have hspace : ' '.utf8Size = 1 := rfl
    rw [utf8Length_append] at hlength
    rw [h.text, hskip]
    simp only [utf8Length_append, utf8Length_cons, hspace]
    omega

/-! ### Filters in brackets and parentheses -/

/-- A filter is read in brackets or parentheses as it is read alone, where that many levels are left
for it. -/
theorem scanEnclosed_reads {depth : Nat} {close : Char} (hclose : close = ')' ∨ close = ']')
    (fault : Malformed) (hread : parse (String.ofList inner) = .ok f) (hdepth : f.depth < depth)
    (hle : depth ≤ greatestDepth + 1) (rest : List Char) :
    scanEnclosed (scanWithin depth) close fault (inner ++ close :: rest) = .ok (f, rest) := by
  obtain ⟨-, blanks, hscan, hblanks⟩ := parse_eq_ok.mp hread
  rw [String.toList_ofList] at hscan
  have halone : scanWithin depth inner = .ok (f, blanks) :=
    scanWithin_depth hle closes_nil (by simpa using hscan) hdepth
  have hbehind := (scanWithin_carries le_rfl halone).2 (closes_cons hclose rest)
  have hblank : isBlank close = false := by
    rcases hclose with rfl | rfl <;> decide
  refine scanEnclosed_iff.mpr ⟨_, hbehind, ?_⟩
  rw [skipBlanks_blanks hblanks, skipBlanks_cons rest hblank]

theorem scanOperand_enclosed {depth : Nat} (hread : parse (String.ofList inner) = .ok f)
    (hdepth : f.depth < depth) (hle : depth ≤ greatestDepth + 1) (rest : List Char) :
    scanOperand (scanWithin depth) ('(' :: (inner ++ ')' :: rest)) = .ok (.group f, rest) := by
  rw [scanOperand_parenthesis, scanEnclosed_reads (.inl rfl) _ hread hdepth hle]
  rfl

/-- A test behind the brackets joins the filter in them. -/
theorem scanOperand_narrowed {depth : Nat} (ha : a.WellFormed) (hsub : a.sub = none)
    (hnot : a.isNot = false) (hread : parse (String.ofList inner) = .ok f)
    (hdepth : f.depth < depth) (hle : depth ≤ greatestDepth + 1) (ht : IsTest cs name behind t)
    (hs : Closes s) :
    scanOperand (scanWithin depth)
        (a.toText.toList ++ '[' :: (inner ++ ']' :: '.' :: (cs ++ s))) =
      .ok (.select a (.and f.groupedIfOr t), s) := by
  have hstops : Stops ('[' :: (inner ++ ']' :: '.' :: (cs ++ s))) := stops_cons rfl
  have hname : scanName (cs ++ s) = .ok (name, behind ++ s) := by
    rw [ht.text, List.append_assoc, scanName_append ht.letters (ht.stops s).not_isNameChar,
      String.ofList_toList]
  rw [scanOperand_path ha hnot hstops]
  exact scanAttribute_iff.mpr (.selected (scanPath_toText ha hstops) hsub
    (scanEnclosed_reads (.inr rfl) _ hread hdepth hle _)
    (behindSelection_iff.mpr (.dotted hname (ht.closed hs))))

theorem parse_narrowed_group (ha : a.WellFormed) (hsub : a.sub = none) (hnot : a.isNot = false)
    (hread : parse (String.ofList inner) = .ok f) (hdepth : f.depth + 2 ≤ greatestDepth)
    (ht : IsTest cs name behind t) {text : List Char}
    (htext : text = '(' :: (a.toText.toList ++ '[' :: (inner ++ ']' :: '.' :: (cs ++ [')']))))
    (hlen : utf8Length text ≤ greatestLength) :
    parse (String.ofList text) = .ok (.group (.select a (.and f.groupedIfOr t))) := by
  have hcloses : Closes [')'] := closes_cons (.inl rfl) []
  obtain ⟨n, hn⟩ : ∃ n, greatestDepth = n + 1 := ⟨31, rfl⟩
  have hoperand : scanOperand (scanWithin n)
      (a.toText.toList ++ '[' :: (inner ++ ']' :: '.' :: (cs ++ [')']))) =
        .ok (.select a (.and f.groupedIfOr t), [')']) :=
    scanOperand_narrowed ha hsub hnot hread (by omega) (by omega) ht hcloses
  have hinner := scanFilter_operand hoperand hcloses
  have hgroup : scanOperand (scanWithin greatestDepth) text =
      .ok (.group (.select a (.and f.groupedIfOr t)), []) := by
    have henclosed : scanEnclosed (scanWithin (n + 1)) ')' .unclosedGroup
        (a.toText.toList ++ '[' :: (inner ++ ']' :: '.' :: (cs ++ [')']))) =
          .ok (.select a (.and f.groupedIfOr t), []) :=
      scanEnclosed_iff.mpr ⟨_, hinner, skipBlanks_cons [] (by decide)⟩
    rw [htext, scanOperand_parenthesis, hn, henclosed]
    rfl
  refine parse_eq_ok.mpr ⟨by rwa [String.toList_ofList], [], ?_, rfl⟩
  rw [String.toList_ofList]
  exact scanFilter_operand hgroup closes_nil

/-- The name `not` cannot stand in front of brackets. -/
theorem parse_group_not (rest : List Char) {text : List Char} {g : Filter} (ha : a.WellFormed)
    (hnot : a.isNot = true) (htext : text = '(' :: (a.toText.toList ++ '[' :: (rest ++ [')']))) :
    parse (String.ofList text) ≠ .ok g := by
  intro h
  have hcs : text = '(' :: (a.toText.toList ++ '[' :: rest ++ [')']) := by simp [htext]
  rw [hcs] at h
  obtain ⟨f, left, hscan, -⟩ := parse_group h
  obtain ⟨first, behind, hfirst, -⟩ := scanFilter_leftmost hscan
  have hparen : ∀ more, skipBlanks ('[' :: (rest ++ [')'])) ≠ '(' :: more := by
    intro more hskip
    rw [skipBlanks_cons _ (by decide)] at hskip
    cases hskip
  rw [List.append_assoc] at hfirst
  exact scanOperand_keyword ha hnot (stops_cons rfl) hparen _ hfirst

/-- A test inside the brackets, behind the filter in parentheses. -/
theorem parse_joined (hread : parse (String.ofList inner) = .ok f)
    (hdepth : f.depth + 1 ≤ greatestDepth) (ht : IsTest cs name behind t) {text : List Char}
    (htext : text = '(' :: (inner ++ ')' :: ' ' :: ("and".toList ++ ' ' :: cs)))
    (hlen : utf8Length text ≤ greatestLength) :
    parse (String.ofList text) = .ok (.and (.group f) t) := by
  have hgroup : scanOperand (scanWithin greatestDepth) text =
      .ok (.group f, ' ' :: ("and".toList ++ ' ' :: cs)) := by
    rw [htext]
    exact scanOperand_enclosed hread (by omega) (by omega) _
  have htest : scanOperand (scanWithin greatestDepth) (' ' :: cs) = .ok (t, []) := by
    rw [scanOperand_space]
    exact ht.operand _
  have hjoined : scanJoined "and" .and (scanOperand (scanWithin greatestDepth)) text =
      .ok (.and (.group f) t, []) :=
    ((Reaches.first hgroup).next (keyword?_joined (by decide) cs) htest (by simp)).last
      (keyword?_nil (by decide))
  refine parse_eq_ok.mpr ⟨by rwa [String.toList_ofList], [], ?_, rfl⟩
  rw [String.toList_ofList]
  exact (Reaches.first hjoined).last (keyword?_nil (by decide))

end Filter

end Roster
