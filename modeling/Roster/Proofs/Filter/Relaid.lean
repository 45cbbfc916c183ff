import Roster.Proofs.Filter.Layout

/-!
Filters do not depend on the layout of their texts. Whatever a reader reads off a text it reads off
the text in another layout too, and it leaves the same rest, in that layout.
-/

namespace Roster

namespace Filter

/-- What the reader reads off a text at the first place it reads off every other layout of the text,
and what it leaves stands at the second place, in that layout. -/
def ReadsRelaid {α : Type} (p q : Site) (scan : Scan α) : Prop :=
  ∀ ⦃xs ys a rest⦄, Relaid p xs ys → scan xs = .ok (a, rest) →
    ∃ rest', scan ys = .ok (a, rest') ∧ Relaid q rest rest'

/-! ### Paths -/

theorem scanName_relaid : ReadsRelaid (.path true) (.path false) scanName := by
  intro xs ys name rest h hread
  obtain ⟨hxs, hname, hstop⟩ := scanName_split hread
  have hqualified := List.all_eq_true.mp (isAttributeName_qualified hname)
  have hskip : Relaid (.path true) (skipBlanks xs) (skipBlanks ys) := h.skip rfl
  have hself : scanName ys = scanName (skipBlanks ys) := by
    simp only [scanName, skipBlanks_skipBlanks]
  obtain ⟨front, c, hlast⟩ : ∃ front c, name.toList = front ++ [c] :=
    ⟨_, _, (List.dropLast_concat_getLast (ne_nil_of_isAttributeName hname)).symm⟩
  have hc : c ≠ '.' := by
    rintro rfl
    have hmem : '.' ∈ name.toList := by simp [hlast]
    exact not_mem_of_isAttributeName hname (by decide) hmem
  rw [hlast] at hqualified
  rw [hxs, hlast, List.append_assoc] at hskip
  obtain ⟨rest', hys, hrest⟩ := hskip.qualified_end hqualified hc
  refine ⟨rest', ?_, hrest⟩
  have hstop' := (hrest.front_qualified (fun c hc => isQualifiedChar_of_isNameChar hc)
    isNameChar_toLower).mp hstop
  rw [hself, hys, List.append_cons, ← hlast, scanName_append hname hstop', String.ofList_toList]

/-- A path that is read behind a URN ends with no dot. -/
theorem scanQualified_last {cs rest : List Char} {a : AttributePath}
    (h : scanQualified cs = .ok (a, rest)) :
    ∃ front c, cs.takeWhile isQualifiedChar = front ++ [c] ∧ c ≠ '.' := by
  have hempty : isAttributeName [] = false := rfl
  simp only [scanQualified] at h
  rcases List.eq_nil_or_concat (cs.takeWhile isQualifiedChar) with hnil | ⟨front, c, hlast⟩
  · have hparts : (splitLastColon []).2.splitOnP (· == '.') = [[]] := rfl
    rw [hnil, hparts] at h
    simp [hempty] at h
  · refine ⟨front, c, hlast.trans List.concat_eq_append, ?_⟩
    rintro rfl
    -- a dot at the end would leave the last name empty
    have htail : ∃ tail, (splitLastColon (front.concat '.')).2 = tail ++ ['.'] := by
      refine ⟨(front.reverse.takeWhile (· != ':')).reverse, ?_⟩
      simp [splitLastColon]
    obtain ⟨tail, htail⟩ := htail
    have hparts : (tail ++ ['.']).splitOnP (· == '.') = tail.splitOnP (· == '.') ++ [[]] :=
      List.splitOnP_append_cons tail [] rfl
    have hne := List.splitOnP_ne_nil (· == '.') tail
    rw [hlast, htail, hparts] at h
    generalize tail.splitOnP (· == '.') = parts at h hne
    rcases parts with _ | ⟨name, _ | ⟨sub, parts⟩⟩
    · exact hne rfl
    · simp [hempty] at h
    · cases parts <;> cases h

/-- What is read depends on the characters of the path alone. -/
theorem scanQualified_congr {xs ys rest : List Char} {a : AttributePath}
    (htake : ys.takeWhile isQualifiedChar = xs.takeWhile isQualifiedChar)
    (h : scanQualified xs = .ok (a, rest)) :
    scanQualified ys = .ok (a, ys.dropWhile isQualifiedChar) := by
  exact scanQualified_iff.mpr ⟨htake ▸ (scanQualified_iff.mp h).1, rfl⟩

theorem scanQualified_relaid : ReadsRelaid (.path true) (.path false) scanQualified := by
  intro xs ys a rest h hread
  obtain ⟨front, c, hlast, hc⟩ := scanQualified_last hread
  have hall : ∀ d ∈ front ++ [c], isQualifiedChar d = true :=
    hlast ▸ List.all_eq_true.mp List.all_takeWhile
  obtain ⟨-, rfl⟩ := scanQualified_iff.mp hread
  have hsplit : xs = front ++ c :: xs.dropWhile isQualifiedChar := by
    rw [List.append_cons, ← hlast, List.takeWhile_append_dropWhile]
  rw [hsplit] at h
  obtain ⟨rest', rfl, hrest⟩ := h.qualified_end hall hc
  have hstop : ∀ d ∈ rest'.head?, isQualifiedChar d = false :=
    (hrest.front_qualified (fun _ => id) isQualifiedChar_toLower).mp
      (dropWhile_head isQualifiedChar xs)
  have htake : (front ++ c :: rest').takeWhile isQualifiedChar = xs.takeWhile isQualifiedChar := by
    rw [List.append_cons, hlast, takeWhile_append_stop (List.all_eq_true.mpr hall) hstop]
  have hdrop : (front ++ c :: rest').dropWhile isQualifiedChar = rest' := by
    rw [List.append_cons, dropWhile_append_stop (List.all_eq_true.mpr hall) hstop]
  have hread' := scanQualified_congr htake hread
  rw [hdrop] at hread'
  exact ⟨rest', hread', hrest⟩

/-- Both layouts of a path begin with a word, or neither. -/
theorem Relaid.beginsWith {b : Bool} {word xs ys : List Char} (h : Relaid (.path b) xs ys)
    (hword : ∀ c ∈ word, isQualifiedChar c = true) :
    beginsWith word xs = true → beginsWith word ys = true := by
  intro hbegins
  obtain ⟨front, rest, rfl, hfront⟩ := beginsWith_iff.mp hbegins
  have hqualified : ∀ c ∈ front, isQualifiedChar c = true := by
    intro c hc
    rw [← isQualifiedChar_toLower]
    exact hword _ (hfront ▸ List.mem_map_of_mem hc)
  obtain ⟨rest', rfl, -⟩ := h.qualified hqualified
  exact beginsWith_iff.mpr ⟨front, rest', rfl, hfront⟩

theorem scanPath_relaid : ReadsRelaid (.path true) (.path false) scanPath := by
  intro xs ys a rest h hread
  have hskip : Relaid (.path true) (skipBlanks xs) (skipBlanks ys) := h.skip rfl
  have hword : ∀ c ∈ "urn:".toList, isQualifiedChar c = true :=
    List.all_eq_true.mp (by decide)
  have hfalse (hurn : beginsWith "urn:".toList (skipBlanks xs) = false) :
      beginsWith "urn:".toList (skipBlanks ys) = false := by
    rw [← Bool.not_eq_true] at hurn ⊢
    exact fun hbegins => hurn (hskip.symm.beginsWith hword hbegins)
  cases scanPath_iff.mp hread with
  | qualified hurn hread =>
    obtain ⟨rest', hread', hrest⟩ := scanQualified_relaid hskip hread
    exact ⟨rest', scanPath_iff.mpr (.qualified (hskip.beginsWith hword hurn) hread'), hrest⟩
  | dotted hurn hname hsub =>
    obtain ⟨more', hname', hmore⟩ := scanName_relaid hskip hname
    obtain ⟨dotted', rfl, hdotted⟩ := hmore.uncons_eq (fun _ => by decide) (by simp) (.inl rfl)
    obtain ⟨last', hsub', hlast⟩ := scanName_relaid hdotted hsub
    exact ⟨last', scanPath_iff.mpr (.dotted (hfalse hurn) hname' hsub'), hlast⟩
  | named hurn hname hdot =>
    obtain ⟨more', hname', hmore⟩ := scanName_relaid hskip hname
    have hdot' := hmore.ne_cons (by decide) (by simp) hdot
    exact ⟨more', scanPath_iff.mpr (.named (hfalse hurn) hname' hdot'), hmore⟩

/-- No character of a name stands behind a path. -/
theorem scanPath_stop {cs rest : List Char} {a : AttributePath} (h : scanPath cs = .ok (a, rest)) :
    ∀ c ∈ rest.head?, isNameChar c = false := by
  cases scanPath_iff.mp h with
  | qualified hurn hread =>
    obtain ⟨-, rfl⟩ := scanQualified_iff.mp hread
    exact Stops.not_isNameChar (dropWhile_head isQualifiedChar _)
  | dotted hurn hname hsub => exact (scanName_split hsub).2.2
  | named hurn hname hdot => exact (scanName_split hname).2.2

/-! ### Operators and values -/

/-- No operator joins operands. -/
theorem joins_operator {w : List Char} {op : CompareOp}
    (h : CompareOp.ofWord? (String.ofList w) = some op) :
    Site.joins (w.map Char.toLower) = false := by
  have hsame := List.find?_some h
  have hlower : w.map Char.toLower = foldCase op.word := by
    rw [sameName_iff.mp hsame, foldCase, String.toList_ofList]
  rw [hlower]
  cases op <;> decide

theorem scanOperator_relaid : ReadsRelaid (.word []) (.word []) scanOperator := by
  intro xs ys op rest h hread
  have hskip := h.skipWord
  obtain ⟨hop, rfl⟩ := scanOperator_iff.mp hread
  generalize skipBlanks xs = cs at hskip hop
  have hall : ∀ c ∈ cs.takeWhile isLetter, isLetter c = true :=
    List.all_eq_true.mp List.all_takeWhile
  rw [← List.takeWhile_append_dropWhile (p := isLetter) (l := cs)] at hskip
  obtain ⟨back, rest', hys, hback, hrest⟩ := hskip.letters hall
  have hback' : back.all isLetter = true := by
    have hcomp : isLetter ∘ Char.toLower = isLetter := funext isLetter_toLower
    have hmap := congrArg (List.all · isLetter) hback
    simpa only [List.all_map, hcomp, List.all_eq_true.mpr hall] using hmap
  have hstop : ∀ c ∈ rest'.head?, isLetter c = false :=
    (hrest.front_qualified (fun c hc => isQualifiedChar_of_isNameChar
      (isNameChar_of_isLetter hc)) isLetter_toLower).mp (dropWhile_head isLetter cs)
  have hsame : sameName (String.ofList back) (String.ofList (cs.takeWhile isLetter)) = true := by
    rw [sameName_iff, foldCase, foldCase, String.toList_ofList, String.toList_ofList, hback]
  have hbehind := hrest.behindWord (dropWhile_head isLetter cs)
  rw [List.nil_append, joins_operator hop] at hbehind
  refine ⟨rest', scanOperator_iff.mpr ⟨?_, ?_⟩, hbehind⟩
  · rw [hys, takeWhile_append_stop hback' hstop, ofWord?_congr hsame, hop]
  · rw [hys, dropWhile_append_stop hback' hstop]

/-- A quoted text is the same in both layouts. -/
theorem scanText_relaid : ReadsRelaid .text (.word []) scanText := by
  intro xs
  induction xs using scanText.induct with
  | case1 =>
    intro ys t rest _ hread
    cases hread
  | case2 more =>
    intro ys t rest h hread
    cases hread
    obtain ⟨zs, rfl, hrest⟩ := h.uncons_eq (by decide) (by simp) (.inl rfl)
    exact ⟨zs, rfl, hrest⟩
  | case3 =>
    intro ys t rest _ hread
    cases hread
  | case4 c more d hd ih =>
    intro ys t rest h hread
    simp only [scanText, hd] at hread
    obtain ⟨r, hr, hread⟩ := map_eq_ok.mp hread
    cases hread
    obtain ⟨_, rfl, hescaped⟩ := h.uncons_eq (by decide) (by simp) (.inl rfl)
    obtain ⟨zs, rfl, hmore⟩ := hescaped.uncons_eq (fun hout => by cases hout) (by simp [Site.step])
      (.inl rfl)
    obtain ⟨rest', hread', hrest⟩ := ih hmore hr
    exact ⟨rest', by simp only [scanText, hd, hread', Except.map], hrest⟩
  | case5 c more hd =>
    intro ys t rest _ hread
    simp [scanText, hd] at hread
  | case6 c more hquote hlone hslash ih =>
    intro ys t rest h hread
    have hc := isVerbatim_of_other hquote hlone hslash
    rw [scanText_verbatim hc] at hread
    obtain ⟨r, hr, hread⟩ := map_eq_ok.mp hread
    cases hread
    obtain ⟨zs, rfl, hmore⟩ := h.uncons_eq (fun hout => by cases hout) (by simp) (.inl rfl)
    have hstep : Site.text.step c = .text := by simp [Site.step, hc.1, hc.2]
    rw [hstep] at hmore
    obtain ⟨rest', hread', hrest⟩ := ih hmore hr
    exact ⟨rest', by rw [scanText_verbatim hc, hread']; rfl, hrest⟩

/-! ### Numbers -/

/-- Behind the letters `w` of a word, a rule of a number takes the same off both layouts, up to
case. Where it takes anything, what it takes ends with no letter. -/
def Taken (f : List Char → List Char) (w xs ys : List Char) : Prop :=
  (f ys).map Char.toLower = (f xs).map Char.toLower ∧
    Relaid (.word (if f xs = [] then w else [])) (xs.drop (f xs).length) (ys.drop (f ys).length)

/-- A rule of a number takes the same off all layouts, unless an operand stands there. -/
def TakesRelaid (f : List Char → List Char) : Prop :=
  ∀ ⦃w xs ys⦄, Site.joins w = false → Relaid (.word w) xs ys → Taken f w xs ys

/-- A digit, or a mark that takes up no more of the text: what stands behind it begins a word. -/
structure IsNumeral (c : Char) : Prop where
  not_isLetter : isLetter c = false
  not_isBlank : isBlank c = false
  mark : Site.mark c = .word []

section Numerals

variable {P : Char → Bool} {f g : List Char → List Char} {w xs ys : List Char}

theorem Relaid.numeral {c : Char} (hw : Site.joins w = false) (h : Relaid (.word w) (c :: xs) ys)
    (hc : IsNumeral c) : ∃ zs, ys = c :: zs ∧ Relaid (.word []) xs zs := by
  obtain ⟨zs, rfl, hrest⟩ := h.uncons_eq (fun _ => hc.not_isBlank) (by simp) (.inr hc.not_isLetter)
  rw [Site.step_word hc.not_isLetter, hw, hc.mark] at hrest
  exact ⟨zs, rfl, hrest⟩

theorem Relaid.front_numeral {p : Site} (hP : ∀ c, P c = true → IsNumeral c)
    (h : Relaid p xs ys) : xs.head?.any P = ys.head?.any P := by
  have hnone {c : Char} (hc : ¬IsNumeral c) : P c = false := by
    rw [Bool.eq_false_iff]
    exact fun h => hc (hP c h)
  have hblank {c : Char} (hc : isBlank c = true) : P c = false :=
    hnone fun hn => absurd hn.not_isBlank (by simp [hc])
  have hletter {c : Char} (hc : isLetter c = true) : P c = false :=
    hnone fun hn => absurd hn.not_isLetter (by simp [hc])
  refine h.front (fun c hc => (hblank hc).trans (hblank (by decide)).symm) fun c => ?_
  rcases toLower_eq_or c with heq | ⟨hc, hlower⟩
  · rw [heq]
  · rw [hletter hc, hletter hlower]

theorem TakesRelaid.thenTake (hf : TakesRelaid f) (hg : TakesRelaid g) :
    TakesRelaid (thenTake f g) := by
  intro w xs ys hw h
  obtain ⟨hfront, hrest⟩ := hf hw h
  have hjoins : Site.joins (if f xs = [] then w else []) = false := by
    split
    · exact hw
    · rfl
  obtain ⟨hback, hmore⟩ := hg hjoins hrest
  constructor
  · rw [Filter.thenTake, Filter.thenTake, List.map_append, List.map_append, hfront, hback]
  · simp only [Filter.thenTake, List.length_append, ← List.drop_drop, List.append_eq_nil_iff]
    by_cases hnil : f xs = [] <;> simp_all

theorem Taken.marked (hP : ∀ c, P c = true → IsNumeral c) (hw : Site.joins w = false)
    (h : Relaid (.word w) xs ys)
    (hf : ∀ c rest rest', xs = c :: rest → Relaid (.word []) rest rest' → Taken f [] rest rest') :
    Taken (marked P f) w xs ys := by
  cases xs with
  | nil =>
    obtain rfl := h.eq_nil
    exact ⟨rfl, h⟩
  | cons c xs =>
    by_cases hc : P c = true
    · obtain ⟨zs, rfl, hrest⟩ := h.numeral hw (hP c hc)
      obtain ⟨hsame, hmore⟩ := hf c xs zs rfl hrest
      have hread (cs : List Char) : Filter.marked P f (c :: cs) = c :: f cs := by
        simp [Filter.marked, hc]
      refine ⟨by rw [hread, hread, List.map_cons, List.map_cons, hsame], ?_⟩
      rw [ite_self] at hmore
      simpa [hread] using hmore
    · have hfirst := h.front_numeral hP
      have hys : Filter.marked P f ys = [] := by
        cases ys with
        | nil => rfl
        | cons d ys =>
          have hd : P d = P c := hfirst.symm
          simp [Filter.marked, hd, hc]
      have hxs : Filter.marked P f (c :: xs) = [] := by simp [Filter.marked, hc]
      rw [Taken, hxs, hys]
      exact ⟨rfl, by simpa using h⟩

theorem TakesRelaid.marked (hP : ∀ c, P c = true → IsNumeral c) (hf : TakesRelaid f) :
    TakesRelaid (marked P f) :=
  fun _ _ _ hw h => .marked hP hw h fun _ _ _ _ hrest => hf rfl hrest

theorem isNumeral_of_isDigit {c : Char} (h : isDigit c = true) : IsNumeral c where
  not_isLetter := not_isLetter_of_isDigit h
  not_isBlank := not_isBlank_of_isDigit h
  mark := by
    simp [Site.mark, ne_of_isDigit h (show isDigit '"' = false by decide),
      ne_of_isDigit h (show isDigit '(' = false by decide),
      ne_of_isDigit h (show isDigit '[' = false by decide),
      ne_of_isDigit h (show isDigit ']' = false by decide)]

theorem isNumeral_of_sign {c : Char} (h : (c == '-' || c == '+') = true) : IsNumeral c := by
  rcases Bool.or_eq_true_iff.mp h with hc | hc <;> cases beq_iff_eq.mp hc <;>
    exact ⟨by decide, by decide, by decide⟩

theorem takesRelaid_digits : TakesRelaid (List.takeWhile isDigit) := by
  -- digits are one digit with digits behind it
  have hrule : List.takeWhile isDigit = marked isDigit (List.takeWhile isDigit) := by
    funext cs
    cases cs with
    | nil => rfl
    | cons c cs => rw [List.takeWhile_cons, marked]
  intro w xs
  induction xs generalizing w with
  | nil =>
    intro ys _ h
    obtain rfl := h.eq_nil
    exact ⟨rfl, h⟩
  | cons c xs ih =>
    intro ys hw h
    rw [hrule]
    refine .marked (fun _ => isNumeral_of_isDigit) hw h fun d rest rest' heq hrest => ?_
    cases heq
    exact ih rfl hrest

theorem takesRelaid_signOf : TakesRelaid signOf := by
  -- a sign has nothing more behind it
  have hrule : signOf = marked (fun c => c == '-' || c == '+') fun _ => [] := by
    funext cs
    cases cs with
    | nil => rfl
    | cons c cs =>
      unfold signOf marked
      split <;> simp_all
  rw [hrule]
  exact .marked (fun _ => isNumeral_of_sign) fun _ _ _ _ h => ⟨rfl, by simpa using h⟩

theorem takesRelaid_plainNumber : TakesRelaid plainNumber := by
  refine (takesRelaid_signOf.thenTake takesRelaid_digits).thenTake
    (takesRelaid_digits.marked fun c hc => ?_)
  cases beq_iff_eq.mp hc
  exact ⟨by decide, by decide, by decide⟩

theorem exponent_cons {c : Char} (hc : (c == 'e' || c == 'E') = true) (cs : List Char) :
    exponent (c :: cs) = c :: thenTake signOf (List.takeWhile isDigit) cs := by
  simp only [exponent, marked, hc, if_true]

theorem exponent_none {cs : List Char} (h : ∀ c ∈ cs.head?, (c == 'e' || c == 'E') = false) :
    exponent cs = [] := by
  cases cs with
  | nil => rfl
  | cons c cs => simp only [exponent, marked, h c rfl, Bool.false_eq_true, if_false]

theorem isLetter_of_exponent {c : Char} (h : (c == 'e' || c == 'E') = true) :
    isLetter c = true := by
  rcases Bool.or_eq_true_iff.mp h with h | h <;> cases beq_iff_eq.mp h <;> decide

/-- Both layouts have the same exponent, up to case, which ends with no letter unless it is its mark
alone. -/
theorem Relaid.exponent (h : Relaid (.word []) xs ys) :
    (exponent ys).map Char.toLower = (exponent xs).map Char.toLower ∧
      ((∃ c, exponent xs = [c] ∧ isLetter c = true) ∨
        Relaid (.word []) (xs.drop (exponent xs).length) (ys.drop (exponent ys).length)) := by
  by_cases hfirst : ∀ c ∈ xs.head?, (c == 'e' || c == 'E') = false
  · have hfirst' := (h.front_qualified (P := fun c => c == 'e' || c == 'E')
      (fun c hc => isQualifiedChar_of_isNameChar (isNameChar_of_isLetter (isLetter_of_exponent hc)))
      isExponent_toLower).mp hfirst
    rw [exponent_none hfirst, exponent_none hfirst']
    exact ⟨rfl, .inr (by simpa using h)⟩
  · obtain ⟨c, xs, rfl, hc⟩ : ∃ c more, xs = c :: more ∧ (c == 'e' || c == 'E') = true := by
      cases xs with
      | nil => simp at hfirst
      | cons c xs =>
        refine ⟨c, xs, rfl, eq_true_of_ne_false fun hc => hfirst ?_⟩
        rintro d ⟨⟩
        exact hc
    have hletter := isLetter_of_exponent hc
    obtain ⟨d, zs, rfl, hrest, hlower, -⟩ :=
      h.uncons (fun _ => not_isBlank_of_isLetter hletter) (by simp)
    have hd : (d == 'e' || d == 'E') = true := by
      rw [← isExponent_toLower, hlower, isExponent_toLower, hc]
    have hstep : (Site.word []).step c = .word [c.toLower] := by simp [Site.step, hletter]
    have hjoins : Site.joins [c.toLower] = false := by simp [Site.joins]
    rw [hstep] at hrest
    obtain ⟨hsame, hmore⟩ := (takesRelaid_signOf.thenTake takesRelaid_digits) hjoins hrest
    rw [exponent_cons hc, exponent_cons hd]
    refine ⟨by rw [List.map_cons, List.map_cons, hlower, hsame], ?_⟩
    by_cases hnil : thenTake signOf (List.takeWhile isDigit) xs = []
    · exact .inl ⟨c, by rw [hnil], hletter⟩
    · rw [if_neg hnil] at hmore
      exact .inr hmore

end Numerals

end Filter

namespace Decimal

/-- An exponent ends with a digit. -/
theorem readExponent?_last {cs : List Char} {n : Nat} (h : readExponent? cs = some n) :
    ∃ front c, cs = front ++ [c] ∧ isDigit c = true := by
  have hdigits {ds : List Char} (hds : (if ds.isEmpty || !ds.all isDigit then none
      else some (decimalValue ds)) = some n) : ∃ front c, ds = front ++ [c] ∧ isDigit c = true := by
    split at hds
    case isTrue => cases hds
    case isFalse hall =>
      simp only [Bool.or_eq_true, not_or, List.isEmpty_iff, Bool.not_eq_true', Bool.not_eq_false,
        List.all_eq_true] at hall
      obtain ⟨hne, hall⟩ := hall
      exact ⟨ds.dropLast, ds.getLast hne, (List.dropLast_concat_getLast hne).symm,
        hall _ (List.getLast_mem hne)⟩
  unfold readExponent? at h
  split at h
  case h_1 rest =>
    obtain ⟨front, c, rfl, hc⟩ := hdigits h
    exact ⟨'+' :: front, c, rfl, hc⟩
  case h_2 => exact hdigits h

/-- So does a decimal that has one. -/
theorem parseScientific?_last {cs : List Char} {d : Decimal} (h : parseScientific? cs = some d) :
    ∃ front c, cs = front ++ [c] ∧ isDigit c = true := by
  have hbehind (front : List Char) {ds : List Char} {n : Nat} (hn : readExponent? ds = some n)
      (hcs : cs = front ++ ds) : ∃ front c, cs = front ++ [c] ∧ isDigit c = true := by
    obtain ⟨more, c, rfl, hc⟩ := readExponent?_last hn
    exact ⟨front ++ more, c, by rw [hcs, List.append_assoc], hc⟩
  simp only [parseScientific?, Option.bind_eq_bind, Option.bind_eq_some_iff] at h
  obtain ⟨base, -, h⟩ := h
  obtain ⟨front, hfront⟩ := List.dropWhile_suffix (fun c => !(c == 'e' || c == 'E')) (l := cs)
  split at h
  case h_1 m ds heq =>
    obtain ⟨n, hn, -⟩ := Option.bind_eq_some_iff.mp h
    rw [heq] at hfront
    exact hbehind (front ++ [m, '-']) hn (by simp [← hfront])
  case h_2 m ds _ heq =>
    obtain ⟨n, hn, -⟩ := Option.bind_eq_some_iff.mp h
    rw [heq] at hfront
    exact hbehind (front ++ [m]) hn (by simp [← hfront])
  case h_3 => cases h

end Decimal

namespace Filter

/-- The mark of an exponent alone ends no number. -/
theorem numberOf?_mark {front : List Char} {c : Char} (hc : isLetter c = true) :
    numberOf? (front ++ [c]) true = none := by
  rw [Option.eq_none_iff_forall_ne_some]
  intro d h
  have hlast (more : List Char) {cs : List Char} (hcs : front ++ [c] = more ++ cs)
      (hd : Decimal.parseScientific? cs = some d) : False := by
    obtain ⟨back, e, rfl, he⟩ := Decimal.parseScientific?_last hd
    rw [← List.append_assoc] at hcs
    have hce : c = e := by simpa using (List.append_inj' hcs rfl).2
    rw [hce, not_isLetter_of_isDigit he] at hc
    cases hc
  simp only [numberOf?, if_true] at h
  split at h
  case h_1 rest heq => exact hlast ['+'] heq h
  case h_2 => exact hlast [] rfl h

theorem scanNumber_relaid : ReadsRelaid (.word []) (.word []) scanNumber := by
  intro xs ys v rest h hread
  obtain ⟨d, hd, rfl, rfl⟩ := scanNumber_iff.mp hread
  rw [numberToken_eq] at hd ⊢
  obtain ⟨hplain, hrest⟩ := takesRelaid_plainNumber rfl h
  rw [ite_self] at hrest
  obtain ⟨hexponent, hmore⟩ := hrest.exponent
  have htoken : (thenTake plainNumber exponent ys).map Char.toLower =
      (thenTake plainNumber exponent xs).map Char.toLower := by
    rw [thenTake, thenTake, List.map_append, List.map_append, hplain, hexponent]
  have hscientific : (exponent (ys.drop (plainNumber ys).length)).isEmpty =
      (exponent (xs.drop (plainNumber xs).length)).isEmpty := by
    have hempty := congrArg List.isEmpty hexponent
    rwa [List.isEmpty_map, List.isEmpty_map] at hempty
  have hnumber (b : Bool) : numberOf? (thenTake plainNumber exponent ys) b =
      numberOf? (thenTake plainNumber exponent xs) b := by
    rw [← numberOf?_map, htoken, numberOf?_map]
  rcases hmore with ⟨c, hc, hletter⟩ | hmore
  · rw [thenTake, hc, List.isEmpty_cons, Bool.not_false, numberOf?_mark hletter] at hd
    cases hd
  · refine ⟨ys.drop (thenTake plainNumber exponent ys).length,
      scanNumber_iff.mpr ⟨d, ?_, rfl, by rw [numberToken_eq]⟩, ?_⟩
    · rw [numberToken_eq, hscientific, hnumber, hd]
    · simpa only [thenTake, List.length_append, List.drop_drop] using hmore

/-! ### Values and tests -/

theorem ReadsRelaid.wordOr {word : String} {v : Literal} {scan : Scan Literal}
    (hw : IsKeyword word) (hjoins : Site.joins word.toList = false)
    (h : ReadsRelaid (.word []) (.word []) scan) :
    ReadsRelaid (.word []) (.word []) (wordOr word v scan) := by
  intro xs ys w rest hxs hread
  rcases wordOr_iff.mp hread with ⟨hword, rfl⟩ | ⟨hword, hread⟩
  · obtain ⟨more', hword', hmore⟩ := hxs.keyword hw hword
    rw [hjoins] at hmore
    exact ⟨more', wordOr_iff.mpr (.inl ⟨hword', rfl⟩), hmore⟩
  · obtain ⟨rest', hread', hrest⟩ := h hxs hread
    exact ⟨rest', wordOr_iff.mpr (.inr ⟨hxs.keyword_none hw hword, hread'⟩), hrest⟩

theorem scanDigits_relaid : ReadsRelaid (.word []) (.word []) scanDigits := by
  intro xs ys v rest h hread
  obtain ⟨⟨c, hhead, hc⟩, hnumber⟩ := scanDigits_iff.mp hread
  obtain ⟨cs, rfl⟩ := List.head?_eq_some_iff.mp hhead
  have hnumeral : IsNumeral c := by
    rw [Bool.or_assoc] at hc
    exact (Bool.or_eq_true_iff.mp hc).elim isNumeral_of_isDigit isNumeral_of_sign
  obtain ⟨zs, rfl, -⟩ := h.numeral rfl hnumeral
  obtain ⟨rest', hnumber', hrest⟩ := scanNumber_relaid h hnumber
  exact ⟨rest', scanDigits_iff.mpr ⟨⟨c, rfl, hc⟩, hnumber'⟩, hrest⟩

theorem scanBare_relaid : ReadsRelaid (.word []) (.word []) scanBare :=
  ((scanDigits_relaid.wordOr (by decide) (by decide)).wordOr (by decide) (by decide)).wordOr
    (by decide) (by decide)

theorem scanLiteral_relaid : ReadsRelaid (.word []) (.word []) scanLiteral := by
  intro xs ys v rest h hread
  have hskip := h.skipWord
  cases scanLiteral_iff.mp hread with
  | quoted hquote htext =>
    rw [hquote] at hskip
    obtain ⟨zs, hys, hzs⟩ := hskip.uncons_eq (fun _ => by decide) (by simp) (.inr rfl)
    obtain ⟨rest', htext', hrest⟩ := scanText_relaid hzs htext
    exact ⟨rest', scanLiteral_iff.mpr (.quoted hys htext'), hrest⟩
  | bare hquote hbare =>
    have hquote' : (skipBlanks ys).head? ≠ some '"' := by
      intro hhead
      obtain ⟨zs, hzs⟩ := List.head?_eq_some_iff.mp hhead
      refine hskip.ne_cons (by decide) (by simp) (fun cs hcs => hquote ?_) zs hzs
      rw [hcs]
      rfl
    obtain ⟨rest', hbare', hrest⟩ := scanBare_relaid hskip hbare
    exact ⟨rest', scanLiteral_iff.mpr (.bare hquote' hbare'), hrest⟩

theorem scanTest_relaid (a : AttributePath) : ReadsRelaid (.word []) (.word []) (scanTest a) := by
  intro xs ys f rest h hread
  cases scanTest_iff.mp hread with
  | present hword =>
    obtain ⟨more', hword', hmore⟩ := h.keyword (by decide) hword
    exact ⟨more', scanTest_iff.mpr (.present hword'), hmore⟩
  | compared hword hop hvalue =>
    obtain ⟨more', hop', hmore⟩ := scanOperator_relaid h hop
    obtain ⟨last', hvalue', hlast⟩ := scanLiteral_relaid hmore hvalue
    exact ⟨last', scanTest_iff.mpr (.compared (h.keyword_none (by decide) hword) hop' hvalue'),
      hlast⟩

/-- A test stands behind a blank, which separates it from the path that it looks at. -/
theorem Relaid.test {xs ys rest : List Char} {a : AttributePath} {f : Filter}
    (h : Relaid (.path false) xs ys) (hstop : ∀ c ∈ xs.head?, isNameChar c = false)
    (hread : scanTest a xs = .ok (f, rest)) :
    ∃ rest', scanTest a ys = .ok (f, rest') ∧ Relaid (.word []) rest rest' := by
  obtain ⟨c, more, rfl, hblank⟩ := scanTest_head hread hstop
  exact scanTest_relaid a (h.behindPath (stops_cons (not_isQualifiedChar_of_isBlank hblank))) hread

/-! ### Filters -/

section Filters

variable {nested : Scan Filter}

theorem ReadsRelaid.enclosed (hn : ReadsRelaid .operand (.word []) nested) {close : Char}
    (hletter : isLetter close = false) (hblank : isBlank close = false) (fault : Malformed) :
    ReadsRelaid .operand (Site.mark close) (scanEnclosed nested close fault) := by
  intro xs ys f rest h hread
  obtain ⟨more, hinner, hskip⟩ := scanEnclosed_iff.mp hread
  obtain ⟨more', hinner', hmore⟩ := hn h hinner
  replace hmore := hmore.skipWord
  rw [hskip] at hmore
  obtain ⟨last', hskip', hlast⟩ := hmore.uncons_eq (fun _ => hblank) (by simp) (.inr hletter)
  rw [Site.step_word hletter, Site.joins_nil] at hlast
  exact ⟨last', scanEnclosed_iff.mpr ⟨more', hinner', hskip'⟩, hlast⟩

theorem behindSelection_relaid (a : AttributePath) (f : Filter) :
    ReadsRelaid .selected (.word []) (behindSelection a f) := by
  intro xs ys g rest h hread
  cases behindSelection_iff.mp hread with
  | dotted hname htest =>
    obtain ⟨more', rfl, hmore⟩ := h.uncons_eq (by decide) (by simp) (.inr (by decide))
    obtain ⟨after', hname', hafter⟩ := scanName_relaid hmore hname
    obtain ⟨last', htest', hlast⟩ := hafter.test (scanName_split hname).2.2 htest
    exact ⟨last', behindSelection_iff.mpr (.dotted hname' htest'), hlast⟩
  | plain hdot =>
    have hdot' := h.ne_cons (by decide) (by simp) hdot
    have hword : Relaid (.word []) xs ys := by
      refine h.shift (fun heq => by cases heq) rfl (fun c hc => ?_) (fun _ _ _ _ => rfl)
      have hne : c ≠ '.' := by
        rintro rfl
        obtain ⟨more, rfl⟩ := List.head?_eq_some_iff.mp hc
        exact hdot more rfl
      simp [Site.step, hne]
    refine ⟨_, behindSelection_iff.mpr (.plain hdot'), ?_⟩
    rcases hword.keyword_cases (show IsKeyword "pr" by decide) with
      ⟨more, more', hpr, hpr', hmore⟩ | ⟨hpr, hpr'⟩
    · rw [hpr, hpr']
      exact hmore
    · rw [hpr, hpr']
      exact hword

theorem ReadsRelaid.attribute (hn : ReadsRelaid .operand (.word []) nested) :
    ReadsRelaid (.path true) (.word []) (scanAttribute nested) := by
  intro xs ys f rest h hread
  cases scanAttribute_iff.mp hread with
  | selected hpath hsub hinner hbehind =>
    obtain ⟨more', hpath', hmore⟩ := scanPath_relaid h hpath
    obtain ⟨opened', rfl, hopened⟩ := hmore.uncons_eq (by decide) (by simp) (.inl rfl)
    obtain ⟨behind', hinner', hrest⟩ := hn.enclosed (by decide) (by decide) _ hopened hinner
    obtain ⟨rest', hbehind', hlast⟩ := behindSelection_relaid _ _ hrest hbehind
    exact ⟨rest', scanAttribute_iff.mpr (.selected hpath' hsub hinner' hbehind'), hlast⟩
  | tested hpath hbracket htest =>
    obtain ⟨more', hpath', hmore⟩ := scanPath_relaid h hpath
    have hbracket' := hmore.ne_cons (by decide) (by simp) hbracket
    obtain ⟨rest', htest', hrest⟩ := hmore.test (scanPath_stop hpath) htest
    exact ⟨rest', scanAttribute_iff.mpr (.tested hpath' hbracket' htest'), hrest⟩

/-- The word in front of a negation is there in both layouts. Behind it is an operand, or what could
be the end of a path. -/
theorem Relaid.negated {xs ys rest : List Char} (h : Relaid .operand xs ys)
    (hnot : keyword? "not" xs = some rest) : ∃ rest', keyword? "not" ys = some rest' ∧
      (Relaid .operand rest rest' ∨ Relaid (.path false) rest rest') := by
  obtain ⟨front, hxs, hfront, hends⟩ := keyword?_iff.mp hnot
  have hskip : Relaid .operand (skipBlanks xs) (skipBlanks ys) := h.skip rfl
  have hw : IsKeyword "not" := by decide
  have hqualified : ∀ c ∈ front, isQualifiedChar c = true := fun c hc =>
    isQualifiedChar_of_isNameChar (isNameChar_of_isLetter (hw.letter hfront hc))
  obtain ⟨init, last, hlast, hdot⟩ : ∃ init last, front = init ++ [last] ∧ last ≠ '.' := by
    have hne := hw.written hfront
    refine ⟨front.dropLast, front.getLast hne, (List.dropLast_concat_getLast hne).symm, ?_⟩
    intro hdot
    have hletter := hw.letter hfront (List.getLast_mem hne)
    rw [hdot] at hletter
    cases hletter
  have hfirst : ∀ c ∈ (front ++ rest).head?, isQualifiedChar c = true := by
    intro c hc
    obtain ⟨d, front, rfl⟩ := List.exists_cons_of_ne_nil (hw.written hfront)
    cases hc
    exact hqualified _ List.mem_cons_self
  rw [hxs] at hskip
  generalize hys : skipBlanks ys = zs at hskip
  generalize hcs : front ++ rest = cs at hskip hfirst
  cases hskip with
  | nil => simp [hlast] at hcs
  | @keep _ c cs zs hrest =>
    -- the letters are kept one by one, as those of a path are
    have hc := hfirst c rfl
    have hstep : Site.operand.step c = (Site.path true).step c := by
      simp [Site.step, Site.start, not_isBlank_of_isQualifiedChar hc, hc]
    rw [hstep] at hrest
    have hpath : Relaid (.path true) (c :: cs) (c :: zs) := .keep hrest
    rw [hlast] at hqualified
    rw [← hcs, hlast, List.append_assoc] at hpath
    obtain ⟨rest', hrest', hmore⟩ := hpath.qualified_end hqualified hdot
    refine ⟨rest', keyword?_iff.mpr ⟨front, ?_, hfront, hmore.ends hends⟩, .inr hmore⟩
    rw [hys, hrest', hlast, List.append_assoc]
    rfl
  | gap _ ha =>
    obtain ⟨a, as, rfl⟩ := List.exists_cons_of_ne_nil ha.1
    have hblank := not_isBlank_of_isQualifiedChar (hfirst a rfl)
    rw [ha.2 a List.mem_cons_self] at hblank
    cases hblank
  | letter hp => cases hp
  | @negation as bs cs zs ha hb _ hz hrest =>
    have hlength : front.length = as.length := by
      rw [← List.length_map Char.toLower, hfront, ← ha, List.length_map]
    obtain ⟨-, rfl⟩ := List.append_inj hcs hlength
    exact ⟨zs, keyword?_iff.mpr ⟨bs, hys, hb, hrest.ends hends⟩, .inl hrest⟩

/-- In front of a character that is none of a path, and blanks before it, a path ends. -/
theorem stops_of_skipBlanks {cs rest : List Char} {c : Char} (h : skipBlanks cs = c :: rest)
    (hc : isQualifiedChar c = false) : Stops cs := by
  intro d hd
  obtain ⟨cs, rfl⟩ := List.head?_eq_some_iff.mp hd
  cases hblank : isBlank d with
  | true => exact not_isQualifiedChar_of_isBlank hblank
  | false =>
    rw [skipBlanks_cons cs hblank] at h
    cases h
    exact hc

/-- A parenthesis at an operand is one in both layouts. -/
theorem Relaid.opened {xs ys inner : List Char} (h : Relaid .operand xs ys)
    (hopen : skipBlanks xs = '(' :: inner) :
    ∃ inner', skipBlanks ys = '(' :: inner' ∧ Relaid .operand inner inner' := by
  have hskip : Relaid .operand (skipBlanks xs) (skipBlanks ys) := h.skip rfl
  rw [hopen] at hskip
  have hnone : keyword? "not" ('(' :: inner) = none :=
    keyword?_other (by decide) (by decide) (by decide)
  have hpath := hskip.behindOperand (by rintro c ⟨⟩; decide) hnone
  exact hpath.uncons_eq (by decide) (by simp) (.inl rfl)

/-- So is one behind what could be the end of a path. -/
theorem Relaid.openedBehind {xs ys inner : List Char} (h : Relaid (.path false) xs ys)
    (hopen : skipBlanks xs = '(' :: inner) :
    ∃ inner', skipBlanks ys = '(' :: inner' ∧ Relaid .operand inner inner' := by
  have hword := (h.behindPath (stops_of_skipBlanks hopen (by decide))).skipWord
  rw [hopen] at hword
  exact hword.uncons_eq (by decide) (by simp) (.inr (by decide))

theorem ReadsRelaid.operand (hn : ReadsRelaid .operand (.word []) nested) :
    ReadsRelaid .operand (.word []) (scanOperand nested) := by
  intro xs ys f rest h hread
  have hnone (hword : keyword? "not" xs = none) : keyword? "not" ys = none := by
    rw [Option.eq_none_iff_forall_ne_some]
    intro more hmore
    obtain ⟨more', hmore', -⟩ := h.symm.negated hmore
    rw [hword] at hmore'
    cases hmore'
  cases scanOperand_iff.mp hread with
  | negated hword hopen hinner =>
    obtain ⟨more', hword', hmore⟩ := h.negated hword
    obtain ⟨opened', hopen', hopened⟩ := hmore.elim (·.opened hopen) (·.openedBehind hopen)
    obtain ⟨rest', hinner', hrest⟩ := hn.enclosed (by decide) (by decide) _ hopened hinner
    exact ⟨rest', scanOperand_iff.mpr (.negated hword' hopen' hinner'), hrest⟩
  | grouped hword hopen hinner =>
    obtain ⟨opened', hopen', hopened⟩ := h.opened hopen
    obtain ⟨rest', hinner', hrest⟩ := hn.enclosed (by decide) (by decide) _ hopened hinner
    exact ⟨rest', scanOperand_iff.mpr (.grouped (hnone hword) hopen' hinner'), hrest⟩
  | atPath hword hopen hread =>
    have hskip : Relaid .operand (skipBlanks xs) (skipBlanks ys) := h.skip rfl
    have hpath := hskip.behindOperand (dropWhile_head isBlank xs)
      ((keyword?_skip "not" xs).trans hword)
    obtain ⟨rest', hread', hrest⟩ := hn.attribute hpath hread
    refine ⟨rest', scanOperand_iff.mpr (.atPath (hnone hword) (fun opened' hopen' => ?_) hread'),
      hrest⟩
    obtain ⟨opened, hopened, -⟩ := h.symm.opened hopen'
    exact hopen opened hopened

section Chains

variable {operand : Scan Filter} {word : String} {join : Filter → Filter → Filter}

/-- Fuel for every character is enough in either layout. -/
theorem ReadsRelaid.chain (hw : IsKeyword word) (hjoins : Site.joins word.toList = true)
    (ho : ReadsRelaid .operand (.word []) operand) (hc : Carries operand operand)
    {fuel : Nat} (fuel' : Nat) {left f : Filter} {xs ys rest : List Char}
    (h : Relaid (.word []) xs ys) (hfuel : xs.length ≤ fuel) (hfuel' : ys.length ≤ fuel')
    (hread : scanChain word join operand fuel left xs = .ok (f, rest)) :
    ∃ rest', scanChain word join operand fuel' left ys = .ok (f, rest') ∧
      Relaid (.word []) rest rest' := by
  induction fuel generalizing fuel' left xs ys with
  | zero =>
    cases hread
    obtain rfl : rest = [] := List.length_eq_zero_iff.mp (Nat.le_zero.mp hfuel)
    obtain rfl := h.eq_nil
    refine ⟨[], ?_, h⟩
    cases fuel' <;> simp only [scanChain, keyword?_nil hw]
  | succ fuel ih =>
    simp only [scanChain] at hread
    split at hread
    case h_2 hnone =>
      cases hread
      refine ⟨ys, ?_, h⟩
      cases fuel' <;> simp only [scanChain, h.keyword_none hw hnone]
    case h_1 more hword =>
      obtain ⟨⟨right, last⟩, hright, hread⟩ := bind_eq_ok.mp hread
      obtain ⟨more', hword', hmore⟩ := h.keyword hw hword
      rw [hjoins, if_pos rfl] at hmore
      obtain ⟨last', hright', hlast⟩ := ho hmore hright
      have hshorter := keyword?_shorter hw hword
      have hshorter' := keyword?_shorter hw hword'
      have hlength := (hc hright).1.length_le
      have hlength' := (hc hright').1.length_le
      obtain ⟨fuel', rfl⟩ : ∃ n, fuel' = n + 1 := ⟨fuel' - 1, by omega⟩
      obtain ⟨rest', hread', hrest⟩ := ih fuel' hlast (by omega) (by omega) hread
      refine ⟨rest', ?_, hrest⟩
      simp only [scanChain, hword', hright', bind, Except.bind, hread']

theorem ReadsRelaid.joined (hw : IsKeyword word) (hjoins : Site.joins word.toList = true)
    (ho : ReadsRelaid .operand (.word []) operand) (hc : Carries operand operand) :
    ReadsRelaid .operand (.word []) (scanJoined word join operand) := by
  intro xs ys f rest h hread
  obtain ⟨⟨left, more⟩, hleft, hread⟩ := bind_eq_ok.mp hread
  obtain ⟨more', hleft', hmore⟩ := ho h hleft
  obtain ⟨rest', hread', hrest⟩ :=
    ho.chain hw hjoins hc more'.length hmore (Nat.le_refl _) (Nat.le_refl _) hread
  refine ⟨rest', ?_, hrest⟩
  simp only [scanJoined, hleft', bind, Except.bind, hread']

end Chains

end Filters

theorem scanWithin_relaid (depth : Nat) : ReadsRelaid .operand (.word []) (scanWithin depth) := by
  induction depth with
  | zero =>
    intro xs ys f rest _ hread
    cases hread
  | succ depth ih =>
    have hself : Carries (scanWithin depth) (scanWithin depth) := scanWithin_carries (Nat.le_refl _)
    have hand : ReadsRelaid .operand (.word [])
        (scanJoined "and" Filter.and (scanOperand (scanWithin depth))) :=
      ih.operand.joined (by decide) (by decide) hself.operand
    exact hand.joined (by decide) (by decide) (hself.operand.joined (by decide))

/-- A text that is read as a filter is read as that filter in every other layout within the limit of
length: with other runs of blanks outside of its quoted texts, and with its keywords and operators
in another case. -/
theorem parse_relaid {s t : String} {f : Filter} (h : parse s = .ok f)
    (hlayout : Relaid .operand s.toList t.toList)
    (hlength : utf8Length t.toList ≤ greatestLength) : parse t = .ok f := by
  obtain ⟨-, rest, hread, hblank⟩ := parse_eq_ok.mp h
  obtain ⟨rest', hread', hrest⟩ := scanWithin_relaid (greatestDepth + 1) hlayout hread
  have hskip := hrest.skipWord
  rw [hblank] at hskip
  exact parse_eq_ok.mpr ⟨hlength, rest', hread', hskip.eq_nil⟩

/-- Tabs, a line feed and an ideographic space for blanks, and words in another case; the names of
the attributes and the quoted text are kept. -/
theorem parse_relaid_spaced :
    let f := Filter.and (.compare (.ofName "a") .eq (.text "x  y")) (.not (.present (.ofName "b")))
    parse "a eq \"x  y\" and not (b pr)" = .ok f ∧
      parse "a\tEq \"x  y\"\n\u3000AND Not\t(b  pR)" = .ok f := by
  have hread : parse "a eq \"x  y\" and not (b pr)" =
      .ok (.and (.compare (.ofName "a") .eq (.text "x  y")) (.not (.present (.ofName "b")))) := by
    decide +kernel
  have hlayout : Relaid .operand "a eq \"x  y\" and not (b pr)".toList
      "a\tEq \"x  y\"\n\u3000AND Not\t(b  pR)".toList := by
    have hfirst : "a eq \"x  y\" and not (b pr)".toList =
        'a' :: ([' '] ++ 'e' :: 'q' :: ' ' :: '"' :: 'x' :: ' ' :: ' ' :: 'y' :: '"' ::
          ([' '] ++ 'a' :: 'n' :: 'd' :: ' ' ::
            ("not".toList ++ ([' '] ++ '(' :: 'b' :: ([' '] ++ ['p', 'r', ')']))))) := by
      decide +kernel
    have hsecond : "a\tEq \"x  y\"\n\u3000AND Not\t(b  pR)".toList =
        'a' :: (['\t'] ++ 'E' :: 'q' :: ' ' :: '"' :: 'x' :: ' ' :: ' ' :: 'y' :: '"' ::
          (['\n', '\u3000'] ++ 'A' :: 'N' :: 'D' :: ' ' ::
            ("Not".toList ++ (['\t'] ++ '(' :: 'b' :: ([' ', ' '] ++ ['p', 'R', ')']))))) := by
      decide +kernel
    rw [hfirst, hsecond]
    refine .keep (.gap rfl (by decide) (by decide) (.letter rfl rfl rfl (.keep (.keep ?_))))
    refine .keep (.keep (.keep (.keep (.keep (.keep (.gap rfl (by decide) (by decide) ?_))))))
    refine .letter rfl rfl rfl (.letter rfl rfl rfl (.letter rfl rfl rfl (.keep ?_)))
    refine .negation (by decide) (by decide) (stops_cons (by decide)) (stops_cons (by decide)) ?_
    refine .gap rfl (by decide) (by decide) (.keep (.keep (.gap rfl (by decide) (by decide) ?_)))
    exact .keep (.letter rfl rfl rfl (.keep .nil))
  exact ⟨hread, parse_relaid hread hlayout (by decide +kernel)⟩

end Filter

end Roster
