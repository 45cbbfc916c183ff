import Roster.Filter.Printer
import Roster.Proofs.Filter.Shape

/-!
The tokens of a printed filter are read as they were written: keywords, attribute paths, operators
and literals, each up to the character that the printer puts behind it.
-/

namespace Roster

namespace Filter

/-! ### Keywords -/

/-- Lower-case letters. -/
def IsKeyword (word : String) : Prop :=
  word.toList ≠ [] ∧ ∀ c ∈ word.toList, isLetter c = true ∧ c.toLower = c

instance (word : String) : Decidable (IsKeyword word) :=
  have : Decidable (∀ c ∈ word.toList, isLetter c = true ∧ c.toLower = c) :=
    List.decidableBAll _ _
  inferInstanceAs (Decidable (_ ∧ _))

/-- A keyword in whatever case is made of letters. -/
theorem IsKeyword.letter {word : String} (hw : IsKeyword word) {front : List Char}
    (h : front.map Char.toLower = word.toList) {c : Char} (hc : c ∈ front) :
    isLetter c = true := by
  rw [← isLetter_toLower]
  exact (hw.2 _ (h ▸ List.mem_map_of_mem hc)).1

theorem IsKeyword.written {word : String} (hw : IsKeyword word) {front : List Char}
    (h : front.map Char.toLower = word.toList) : front ≠ [] := by
  rintro rfl
  exact hw.1 h.symm

/-- A character that ends a keyword and a name. -/
def Stops (rest : List Char) : Prop :=
  ∀ c ∈ rest.head?, isQualifiedChar c = false

theorem stops_cons {c : Char} {rest : List Char} (h : isQualifiedChar c = false) :
    Stops (c :: rest) := by
  rintro d ⟨⟩
  exact h

theorem Stops.not_isNameChar {rest : List Char} (h : Stops rest) :
    ∀ c ∈ rest.head?, isNameChar c = false := by
  intro c hc
  have hq := h c hc
  simp only [isQualifiedChar, Bool.or_eq_false_iff] at hq
  exact hq.1.1.1

@[simp] theorem keyword?_space (word : String) (cs : List Char) :
    keyword? word (' ' :: cs) = keyword? word cs := rfl

theorem isAttributeName_of_letters {cs : List Char} (hne : cs ≠ [])
    (h : cs.all isLetter = true) : isAttributeName cs = true := by
  cases cs with
  | nil => exact absurd rfl hne
  | cons c cs =>
    rw [List.all_cons, Bool.and_eq_true, List.all_eq_true] at h
    simpa [isAttributeName, isNameStart, h.1] using
      fun d hd => isNameChar_of_isLetter (h.2 d hd)

theorem skipBlanks_name {name : List Char} (h : isAttributeName name = true) (rest : List Char) :
    skipBlanks (name ++ rest) = name ++ rest := by
  cases name with
  | nil => cases h
  | cons c cs =>
    rw [isAttributeName, Bool.and_eq_true] at h
    exact skipBlanks_cons _ (not_isBlank_of_isNameStart h.1)

/-- A name is read as the keyword that it is in some case. -/
theorem keyword?_anyCase {word : String} {name rest : List Char}
    (hn : isAttributeName name = true) (hword : name.map Char.toLower = word.toList)
    (hr : Stops rest) : keyword? word (name ++ rest) = some rest := by
  have hbegins : beginsWith word.toList (name ++ rest) = true :=
    beginsWith_iff.mpr ⟨name, rest, rfl, hword⟩
  have hlength : word.toList.length = name.length := by rw [← hword, List.length_map]
  simp only [keyword?, skipBlanks_name hn, hbegins, if_true, hlength, List.drop_left]
  cases rest with
  | nil => rfl
  | cons c rest =>
    have hc := hr c rfl
    simp only [isQualifiedChar, Bool.or_eq_false_iff] at hc
    simp [hc.1.1.1, hc.1.1.2, hc.1.2]

theorem keyword?_word {word : String} (hw : IsKeyword word) {rest : List Char} (hr : Stops rest) :
    keyword? word (word.toList ++ rest) = some rest := by
  have hlower : word.toList.map Char.toLower = word.toList := by
    conv_rhs => rw [← List.map_id word.toList]
    exact List.map_congr_left fun c hc => (hw.2 c hc).2
  refine keyword?_anyCase (isAttributeName_of_letters hw.1 ?_) hlower hr
  exact List.all_eq_true.mpr fun c hc => (hw.2 c hc).1

/-- A keyword that was read stands at the front, in some case, and no name goes on behind it. -/
theorem keyword?_eq_some {word : String} {cs rest : List Char} (h : keyword? word cs = some rest) :
    ∃ front, skipBlanks cs = front ++ rest ∧ front.map Char.toLower = word.toList ∧
      ∀ c ∈ rest.head?, isNameChar c = false ∧ c ≠ '.' := by
  simp only [keyword?] at h
  split at h
  case isTrue hbegins =>
    obtain ⟨front, tail, hcs, hfront⟩ := beginsWith_iff.mp hbegins
    have hlength : word.toList.length = front.length := by rw [← hfront, List.length_map]
    rw [hcs, hlength, List.drop_left] at h
    refine ⟨front, ?_⟩
    split at h
    · cases h
      exact ⟨hcs, hfront, by simp⟩
    · split at h
      · cases h
      case isFalse hstop =>
        cases h
        refine ⟨hcs, hfront, ?_⟩
        rintro d ⟨⟩
        simp only [Bool.or_eq_true, not_or, Bool.not_eq_true, beq_eq_false_iff_ne] at hstop
        exact ⟨hstop.1.1, hstop.1.2⟩
  case isFalse => cases h

theorem keyword?_nil {word : String} (hw : IsKeyword word) : keyword? word [] = none := by
  rw [Option.eq_none_iff_forall_ne_some]
  intro rest h
  obtain ⟨front, hcs, hfront, -⟩ := keyword?_eq_some h
  rw [(List.append_eq_nil_iff.mp hcs.symm).1] at hfront
  exact hw.1 hfront.symm

/-- A text whose first letter is another is not the keyword. -/
theorem keyword?_other {word : String} (hw : IsKeyword word) {c : Char} {cs : List Char}
    (hc : isBlank c = false) (hne : word.toList.head? ≠ some c.toLower) :
    keyword? word (c :: cs) = none := by
  rw [Option.eq_none_iff_forall_ne_some]
  intro rest h
  obtain ⟨front, hcs, hfront, -⟩ := keyword?_eq_some h
  rw [skipBlanks_cons cs hc] at hcs
  cases front with
  | nil => exact hw.1 hfront.symm
  | cons d front =>
    cases hcs
    exact hne (hfront ▸ rfl)

/-- A name is a keyword only as a whole. -/
theorem keyword?_name {word : String} (hw : IsKeyword word) {name rest : List Char}
    (hn : isAttributeName name = true) (hr : ∀ c ∈ rest.head?, isNameChar c = false)
    (hne : name.map Char.toLower ≠ word.toList ∨ rest.head? = some '.') :
    keyword? word (name ++ rest) = none := by
  rw [Option.eq_none_iff_forall_ne_some]
  intro tail h
  obtain ⟨front, hcs, hfront, hstop⟩ := keyword?_eq_some h
  rw [skipBlanks_name hn] at hcs
  rcases List.append_eq_append_iff.mp hcs with ⟨more, rfl, rfl⟩ | ⟨more, rfl, rfl⟩
  · -- the keyword would have to go on behind the name
    cases more with
    | nil =>
      rw [List.append_nil] at hfront
      exact hne.elim (· hfront) fun hdot => (hstop '.' hdot).2 rfl
    | cons c more =>
      have hletter : isLetter c = true := hw.letter hfront (by simp)
      exact absurd (isNameChar_of_isLetter hletter) (by simp [hr c rfl])
  · -- the name would have to go on behind the keyword
    cases more with
    | nil =>
      rw [List.append_nil] at hne
      exact hne.elim (· hfront) fun hdot => (hstop '.' hdot).2 rfl
    | cons c more =>
      cases front with
      | nil => exact hw.1 hfront.symm
      | cons d front =>
        simp only [List.cons_append, isAttributeName, List.all_append, List.all_cons,
          Bool.and_eq_true] at hn
        exact absurd hn.2.2.1 (by simp [(hstop c rfl).1])

/-! ### Attribute paths -/

theorem scanName_append {name rest : List Char} (hn : isAttributeName name = true)
    (hr : ∀ c ∈ rest.head?, isNameChar c = false) :
    scanName (name ++ rest) = .ok (String.ofList name, rest) := by
  cases name with
  | nil => cases hn
  | cons c cs =>
    rw [isAttributeName, Bool.and_eq_true] at hn
    simp only [scanName, List.cons_append, skipBlanks_cons _ (not_isBlank_of_isNameStart hn.1),
      hn.1, if_true, takeWhile_append_stop hn.2 hr, dropWhile_append_stop hn.2 hr]

/-- The characters of a path behind its schema. -/
def localPart (a : AttributePath) : List Char :=
  a.name.toList ++ (a.sub.map fun s => '.' :: s.toList).getD []

theorem toText_localPart {a : AttributePath} (h : a.schema = none) :
    a.toText.toList = localPart a := by
  cases hs : a.sub <;> simp [AttributePath.toText, localPart, h, hs]

theorem toText_qualified {a : AttributePath} {urn : String} (h : a.schema = some urn) :
    a.toText.toList = urn.toList ++ ':' :: localPart a := by
  cases hs : a.sub <;> simp [AttributePath.toText, localPart, h, hs]

theorem ne_nil_of_isAttributeName {name : List Char} (h : isAttributeName name = true) :
    name ≠ [] := by
  rintro rfl
  cases h

theorem isAttributeName_mem {name : List Char} (h : isAttributeName name = true) {c : Char}
    (hc : c ∈ name) : isNameStart c = true ∨ isNameChar c = true := by
  cases name with
  | nil => cases h
  | cons d ds =>
    rw [isAttributeName, Bool.and_eq_true] at h
    rcases List.mem_cons.mp hc with rfl | hc
    · exact .inl h.1
    · exact .inr (List.all_eq_true.mp h.2 c hc)

theorem isAttributeName_qualified {name : List Char} (h : isAttributeName name = true) :
    name.all isQualifiedChar = true := by
  rw [List.all_eq_true]
  intro c hc
  exact (isAttributeName_mem h hc).elim isQualifiedChar_of_isNameStart isQualifiedChar_of_isNameChar

theorem not_mem_of_isAttributeName {name : List Char} (h : isAttributeName name = true) {c : Char}
    (hc : (isNameStart c || isNameChar c) = false) : c ∉ name := by
  intro hmem
  rw [Bool.or_eq_false_iff] at hc
  rcases isAttributeName_mem h hmem with hstart | hchar
  · exact absurd hstart (by simp [hc.1])
  · exact absurd hchar (by simp [hc.2])

theorem localPart_qualified {a : AttributePath} (h : a.WellFormed) :
    (localPart a).all isQualifiedChar = true := by
  have hname := isAttributeName_qualified h.name
  cases hs : a.sub with
  | none => simpa [localPart, hs] using hname
  | some sub =>
    have hsub := isAttributeName_qualified (h.sub sub hs)
    simp only [localPart, hs, Option.map_some, Option.getD_some, List.all_append, hname,
      List.all_cons, hsub]
    rfl

theorem colon_not_mem_localPart {a : AttributePath} (h : a.WellFormed) : ':' ∉ localPart a := by
  have hname := not_mem_of_isAttributeName h.name (c := ':') rfl
  cases hs : a.sub with
  | none => simpa [localPart, hs] using hname
  | some sub =>
    have hsub := not_mem_of_isAttributeName (h.sub sub hs) (c := ':') rfl
    simp [localPart, hs, hname, hsub]

theorem splitOnP_name {name : List Char} (h : isAttributeName name = true) :
    name.splitOnP (· == '.') = [name] := by
  refine List.splitOnP_eq_singleton fun c hc => ?_
  rw [beq_eq_false_iff_ne]
  rintro rfl
  exact not_mem_of_isAttributeName h rfl hc

theorem splitOnP_dotted {name sub : List Char} (hn : isAttributeName name = true)
    (hs : isAttributeName sub = true) :
    (name ++ '.' :: sub).splitOnP (· == '.') = [name, sub] := by
  rw [List.splitOnP_append_cons_of_forall_mem _ _ rfl, splitOnP_name hs]
  intro c hc
  rw [beq_eq_false_iff_ne]
  rintro rfl
  exact not_mem_of_isAttributeName hn rfl hc

theorem scanQualified_toText {a : AttributePath} {urn : String} {rest : List Char}
    (h : a.WellFormed) (hurn : a.schema = some urn) (hr : Stops rest) :
    scanQualified (a.toText.toList ++ rest) = .ok (a, rest) := by
  have hall : (urn.toList ++ ':' :: localPart a).all isQualifiedChar = true := by
    rw [List.all_append, (h.schema urn hurn).1, List.all_cons, localPart_qualified h]
    rfl
  rw [toText_qualified hurn]
  simp only [scanQualified, takeWhile_append_stop hall hr, dropWhile_append_stop hall hr,
    splitLastColon_append (colon_not_mem_localPart h)]
  obtain ⟨schema, name, sub⟩ := a
  cases hurn
  cases sub with
  | none => simp [localPart, splitOnP_name h.name, h.name]
  | some sub =>
    have hsub := h.sub sub rfl
    simp [localPart, splitOnP_dotted h.name hsub, h.name, hsub]

/-- A text that begins with a name does not begin with the scheme of a URN. -/
theorem beginsWith_urn_name {name rest : List Char} (hn : isAttributeName name = true)
    (hr : ∀ c ∈ rest.head?, isNameChar c = false ∧ c ≠ ':') :
    beginsWith "urn:".toList (name ++ rest) = false := by
  rw [Bool.eq_false_iff]
  intro h
  obtain ⟨scheme, tail, hcs, hletters, -⟩ := urn_front h
  rcases List.append_eq_append_iff.mp hcs with ⟨more, rfl, rfl⟩ | ⟨more, rfl, htail⟩
  · cases more with
    | nil => exact (hr ':' rfl).2 rfl
    | cons c more =>
      have hletter : isLetter c = true := List.all_eq_true.mp hletters c (by simp)
      exact absurd (isNameChar_of_isLetter hletter) (by simp [(hr c rfl).1])
  · cases more with
    | nil =>
      cases htail
      exact (hr ':' rfl).2 rfl
    | cons c more =>
      cases htail
      exact not_mem_of_isAttributeName hn (c := ':') rfl (by simp)

theorem toText_begins {a : AttributePath} {urn : String} (h : a.WellFormed)
    (hurn : a.schema = some urn) (rest : List Char) :
    beginsWith "urn:".toList (a.toText.toList ++ rest) = true := by
  have hscheme := beginsWith_append (h.schema urn hurn).2 (localPart a ++ rest)
  simpa [toText_qualified hurn] using hscheme

/-- A qualified path begins with three letters and a colon. -/
theorem toText_urn {a : AttributePath} {urn : String} (h : a.WellFormed)
    (hurn : a.schema = some urn) :
    ∃ scheme tail, a.toText.toList = scheme ++ ':' :: tail ∧ scheme.all isLetter = true ∧
      scheme.map Char.toLower = "urn".toList := by
  obtain ⟨scheme, tail, hfront, hscheme⟩ := urn_front (h.schema urn hurn).2
  refine ⟨scheme, tail ++ localPart a, ?_, hscheme⟩
  rw [toText_qualified hurn, List.append_cons, hfront]
  simp

theorem skipBlanks_qualified {cs : List Char} (h : cs.all isQualifiedChar = true) (hne : cs ≠ [])
    (rest : List Char) : skipBlanks (cs ++ rest) = cs ++ rest := by
  cases cs with
  | nil => exact absurd rfl hne
  | cons c cs =>
    rw [List.all_cons, Bool.and_eq_true] at h
    exact skipBlanks_cons _ (not_isBlank_of_isQualifiedChar h.1)

theorem toText_qualifiedChars {a : AttributePath} (h : a.WellFormed) :
    a.toText.toList.all isQualifiedChar = true := by
  cases hs : a.schema with
  | none =>
    rw [toText_localPart hs]
    exact localPart_qualified h
  | some urn =>
    rw [toText_qualified hs, List.all_append, (h.schema urn hs).1, List.all_cons,
      localPart_qualified h]
    rfl

theorem toText_ne_nil {a : AttributePath} (h : a.WellFormed) : a.toText.toList ≠ [] := by
  cases hs : a.schema with
  | none =>
    intro hnil
    rw [toText_localPart hs, localPart, List.append_eq_nil_iff] at hnil
    exact ne_nil_of_isAttributeName h.name hnil.1
  | some urn => simp [toText_qualified hs]

/-- A name and what follows it, up to a dot. -/
theorem scanPath_name {name : String} {rest : List Char} (hn : isAttributeName name.toList = true)
    (hr : Stops rest) : scanPath (name.toList ++ rest) = .ok (.ofName name, rest) := by
  have hbegins := beginsWith_urn_name hn fun c hc =>
    ⟨hr.not_isNameChar c hc, by rintro rfl; exact absurd (hr ':' hc) (by decide)⟩
  simp only [scanPath, skipBlanks_name hn, hbegins, Bool.false_eq_true, if_false,
    scanName_append hn hr.not_isNameChar]
  cases rest with
  | nil => simp [bind, Except.bind, AttributePath.ofName]
  | cons c rest =>
    have hdot : c ≠ '.' := by
      rintro rfl
      exact absurd (hr '.' rfl) (by decide)
    simp [bind, Except.bind, AttributePath.ofName, hdot]

theorem scanPath_dotted {name sub : String} {rest : List Char}
    (hn : isAttributeName name.toList = true) (hs : isAttributeName sub.toList = true)
    (hr : Stops rest) :
    scanPath (name.toList ++ '.' :: (sub.toList ++ rest)) = .ok (⟨none, name, some sub⟩, rest) := by
  have hdot : ∀ c ∈ ('.' :: (sub.toList ++ rest)).head?, isNameChar c = false ∧ c ≠ ':' := by
    rintro c ⟨⟩
    decide
  have hbegins := beginsWith_urn_name hn hdot
  have hname := scanName_append hn fun c hc => (hdot c hc).1
  simp only [scanPath, skipBlanks_name hn, hbegins, Bool.false_eq_true, if_false, hname]
  simp [scanName_append hs hr.not_isNameChar, bind, Except.bind]

theorem scanPath_toText {a : AttributePath} {rest : List Char} (h : a.WellFormed)
    (hr : Stops rest) : scanPath (a.toText.toList ++ rest) = .ok (a, rest) := by
  obtain ⟨schema, name, sub⟩ := a
  cases schema with
  | some urn =>
    have hbegins := toText_begins h rfl rest
    have hskip := skipBlanks_qualified (toText_qualifiedChars h) (toText_ne_nil h) rest
    simp only [scanPath, hskip, hbegins, if_true, scanQualified_toText h rfl hr]
  | none =>
    rw [toText_localPart rfl, localPart]
    cases sub with
    | none => simpa [AttributePath.ofName] using scanPath_name h.name hr
    | some sub => simpa using scanPath_dotted h.name (h.sub sub rfl) hr

/-- A path is the keyword `not` only when it is that name. -/
theorem keyword?_not_toText {a : AttributePath} {rest : List Char} (h : a.WellFormed)
    (hnot : a.isNot = false) (hr : Stops rest) :
    keyword? "not" (a.toText.toList ++ rest) = none := by
  obtain ⟨schema, name, sub⟩ := a
  cases schema with
  | some urn =>
    -- a URN begins with another letter than the keyword
    obtain ⟨scheme, tail, htext, hletters, hscheme⟩ := toText_urn h rfl
    cases scheme with
    | nil => cases hscheme
    | cons c scheme =>
      have hlower : c.toLower = 'u' := (List.cons.inj hscheme).1
      rw [List.all_cons, Bool.and_eq_true] at hletters
      rw [htext, List.cons_append, List.cons_append]
      exact keyword?_other (by decide)
        (not_isBlank_of_isQualifiedChar (isQualifiedChar_of_isNameChar
          (isNameChar_of_isLetter hletters.1))) (by simp [hlower])
  | none =>
    rw [toText_localPart rfl, localPart]
    cases sub with
    | none =>
      have hne : name.toList.map Char.toLower ≠ "not".toList := by
        intro heq
        have hsame : sameName name "not" = true := sameName_iff.mpr heq
        simp [AttributePath.isNot, hsame] at hnot
      simpa using keyword?_name (by decide) h.name hr.not_isNameChar (.inl hne)
    | some sub =>
      have hdot : ∀ c ∈ ('.' :: (sub.toList ++ rest)).head?, isNameChar c = false := by
        rintro c ⟨⟩
        rfl
      have hname : IsKeyword "not" := by decide
      simpa using keyword?_name hname h.name hdot (.inr rfl)

/-! ### Operators -/

theorem ofWord?_word (op : CompareOp) : CompareOp.ofWord? op.word = some op := by
  cases op <;> decide

theorem scanOperator_word (op : CompareOp) (rest : List Char) :
    scanOperator (' ' :: (op.word.toList ++ ' ' :: rest)) = .ok (op, ' ' :: rest) := by
  have hletters : op.word.toList.all isLetter = true := by cases op <;> decide
  have hqualified : op.word.toList.all isQualifiedChar = true := by cases op <;> decide
  have hne : op.word.toList ≠ [] := by cases op <;> decide
  have hempty : op.word.isEmpty = false := by cases op <;> decide
  have hstop : ∀ c ∈ (' ' :: rest).head?, isLetter c = false := by
    rintro c ⟨⟩
    rfl
  simp only [scanOperator, skipBlanks_space, skipBlanks_qualified hqualified hne,
    takeWhile_append_stop hletters hstop, dropWhile_append_stop hletters hstop,
    String.ofList_toList, hempty, Bool.false_eq_true, if_false, ofWord?_word]

theorem keyword?_pr_operator (op : CompareOp) (rest : List Char) :
    keyword? "pr" (' ' :: (op.word.toList ++ rest)) = none := by
  rw [keyword?_space]
  cases op <;> exact keyword?_other (by decide) rfl (by decide)

/-! ### Literals -/

theorem scanText_escapedChar (c : Char) (cs : List Char) :
    scanText (escapeLiteralChar c ++ cs) = (scanText cs).map fun r => (c :: r.1, r.2) := by
  unfold escapeLiteralChar
  split
  case h_6 hslash _ _ _ =>
    have hslash : c ≠ '\\' := hslash
    simp [scanText, hslash]
  all_goals simp [scanText, unescape?]

/-- A character that stands for itself in a quoted text. -/
def IsVerbatim (c : Char) : Prop :=
  c ≠ '"' ∧ c ≠ '\\'

/-- Neither the closing quote nor the backslash of an escape, which is how the reader finds such a
character. -/
theorem isVerbatim_of_other {c : Char} {rest : List Char} (hquote : c = '"' → False)
    (hlone : c = '\\' → rest = [] → False)
    (hslash : ∀ d more, c = '\\' → rest = d :: more → False) : IsVerbatim c := by
  refine ⟨hquote, fun heq => ?_⟩
  cases rest with
  | nil => exact hlone heq rfl
  | cons d more => exact hslash d more heq rfl

theorem scanText_verbatim {c : Char} (hc : IsVerbatim c) (cs : List Char) :
    scanText (c :: cs) = (scanText cs).map fun r => (c :: r.1, r.2) := by
  obtain ⟨hquote, hslash⟩ := hc
  simp [scanText, hslash]

theorem scanText_escaped (cs rest : List Char) :
    scanText (cs.flatMap escapeLiteralChar ++ '"' :: rest) = .ok (cs, rest) := by
  induction cs with
  | nil => rfl
  | cons c cs ih =>
    rw [List.flatMap_cons, List.append_assoc, scanText_escapedChar, ih]
    rfl

/-- The end of the text, a blank, or a closing character. -/
def Ends (rest : List Char) : Prop :=
  ∀ c ∈ rest.head?, c = ' ' ∨ c = ')' ∨ c = ']'

theorem Ends.stops {rest : List Char} (h : Ends rest) : Stops rest := by
  intro c hc
  rcases h c hc with rfl | rfl | rfl <;> rfl

/-- The text of a number begins with a minus sign when it is negative, else with a digit. -/
theorem toText_number (d : Decimal) : ∃ c cs, d.toText.toList = c :: cs ∧
    (d.negative = true ∧ c = '-' ∨ d.negative = false ∧ isDigit c = true) := by
  rw [Decimal.toText_toList]
  cases d.negative with
  | true => exact ⟨'-', _, rfl, .inl ⟨rfl, rfl⟩⟩
  | false =>
    have hall := all_isDigit_toDigits (d.mantissa / tenTo d.scale)
    cases h : Nat.toDigits 10 (d.mantissa / tenTo d.scale) with
    | nil => exact absurd h Nat.toDigits_ne_nil
    | cons c digits =>
      rw [h, List.all_cons, Bool.and_eq_true] at hall
      exact ⟨c, _, rfl, .inr ⟨rfl, hall.1⟩⟩

theorem number_qualified (d : Decimal) : d.toText.toList.all isQualifiedChar = true := by
  have hdigits {cs : List Char} (h : cs.all isDigit = true) : cs.all isQualifiedChar = true := by
    rw [List.all_eq_true] at *
    intro c hc
    exact isQualifiedChar_of_isNameChar (by simp [isNameChar, h c hc])
  rw [Decimal.toText_toList, List.all_append, List.all_append, hdigits (all_isDigit_toDigits _)]
  by_cases hneg : d.negative = true <;> by_cases hs : d.scale = 0 <;>
    simp [hneg, hs, isQualifiedChar, isNameChar, hdigits (all_isDigit_paddedDigits _ _)]

theorem ne_of_isDigit {c d : Char} (hc : isDigit c = true) (hd : isDigit d = false) : c ≠ d := by
  rintro rfl
  simp [hc] at hd

theorem signOf_toText (d : Decimal) (rest : List Char) :
    signOf (d.toText.toList ++ rest) = if d.negative then ['-'] else [] := by
  obtain ⟨c, cs, htext, ⟨hneg, rfl⟩ | ⟨hneg, hc⟩⟩ := toText_number d
  · rw [htext, hneg]
    rfl
  · rw [htext, hneg]
    simp [signOf, ne_of_isDigit hc (show isDigit '-' = false by decide),
      ne_of_isDigit hc (show isDigit '+' = false by decide)]

theorem Ends.not_isDigit {rest : List Char} (h : Ends rest) :
    ∀ c ∈ rest.head?, isDigit c = false := by
  intro c hc
  rcases h c hc with rfl | rfl | rfl <;> rfl

theorem numberToken_whole {sign whole rest : List Char}
    (hsign : signOf (sign ++ (whole ++ rest)) = sign) (hw : whole.all isDigit = true)
    (hr : Ends rest) : numberToken (sign ++ (whole ++ rest)) = (sign ++ whole, false) := by
  simp only [numberToken, hsign, List.drop_left, takeWhile_append_stop hw hr.not_isDigit]
  cases rest with
  | nil => simp
  | cons c rest => rcases hr c rfl with rfl | rfl | rfl <;> simp

theorem numberToken_fraction {sign whole fraction rest : List Char}
    (hsign : signOf (sign ++ (whole ++ '.' :: (fraction ++ rest))) = sign)
    (hw : whole.all isDigit = true) (hf : fraction.all isDigit = true) (hr : Ends rest) :
    numberToken (sign ++ (whole ++ '.' :: (fraction ++ rest))) =
      (sign ++ (whole ++ '.' :: fraction), false) := by
  have hpoint : ∀ c ∈ ('.' :: (fraction ++ rest)).head?, isDigit c = false := by
    rintro c ⟨⟩
    rfl
  simp only [numberToken, hsign, List.drop_left, takeWhile_append_stop hw hpoint,
    takeWhile_append_stop hf hr.not_isDigit, List.length_cons, List.drop_succ_cons]
  cases rest with
  | nil => simp
  | cons c rest => rcases hr c rfl with rfl | rfl | rfl <;> simp

theorem numberToken_toText (d : Decimal) {rest : List Char} (hr : Ends rest) :
    numberToken (d.toText.toList ++ rest) = (d.toText.toList, false) := by
  have hsign := signOf_toText d rest
  rw [Decimal.toText_toList] at *
  by_cases hs : d.scale = 0
  · rw [if_pos hs, List.append_nil] at *
    rw [List.append_assoc] at *
    exact numberToken_whole hsign (all_isDigit_toDigits _) hr
  · rw [if_neg hs] at *
    simp only [List.append_assoc, List.cons_append] at *
    exact numberToken_fraction hsign (all_isDigit_toDigits _) (all_isDigit_paddedDigits _ _) hr

theorem not_isLetter_of_isDigit {c : Char} (h : isDigit c = true) : isLetter c = false := by
  have hzero : '0'.val.toNat = 48 := rfl
  have hnine : '9'.val.toNat = 57 := rfl
  simp only [isDigit, Bool.and_eq_true, decide_eq_true_eq, Char.le_def, UInt32.le_iff_toNat_le] at h
  rw [Bool.eq_false_iff, ne_eq, isLetter_iff]
  simp only [Char.toNat]
  omega

theorem scanNumber_toText {d : Decimal} {rest : List Char} (h : d.InRange) (hr : Ends rest) :
    scanNumber (d.toText.toList ++ rest) = .ok (.number d, rest) := by
  have hvalue : numberOf? d.toText.toList false = some d := by
    have hread := Decimal.parsePlain?_toText h
    obtain ⟨c, cs, htext, hc⟩ := toText_number d
    have hplus : c ≠ '+' := by
      rcases hc with ⟨-, rfl⟩ | ⟨-, hc⟩
      · decide
      · exact ne_of_isDigit hc (by decide)
    rw [htext] at hread ⊢
    simp [numberOf?, hplus, hread]
  simp only [scanNumber, numberToken_toText d hr, hvalue, List.drop_left]

theorem scanLiteral_number {d : Decimal} {rest : List Char} (h : d.InRange) (hr : Ends rest) :
    scanLiteral (' ' :: (d.toText.toList ++ rest)) = .ok (.number d, rest) := by
  have hnumber := scanNumber_toText h hr
  obtain ⟨c, cs, htext, hc⟩ := toText_number d
  have hfirst : (isDigit c || c == '-' || c == '+') = true := by
    rcases hc with ⟨-, rfl⟩ | ⟨-, hc⟩
    · rfl
    · rw [hc]
      rfl
  have hblank : isBlank c = false := by
    rcases hc with ⟨-, rfl⟩ | ⟨-, hc⟩
    · decide
    · have hname : isNameChar c = true := by simp [isNameChar, hc]
      exact not_isBlank_of_isQualifiedChar (isQualifiedChar_of_isNameChar hname)
  have hletter : isLetter c.toLower = false := by
    rw [isLetter_toLower]
    rcases hc with ⟨-, rfl⟩ | ⟨-, hc⟩
    · decide
    · exact not_isLetter_of_isDigit hc
  have hquote : c ≠ '"' := by
    rcases hc with ⟨-, rfl⟩ | ⟨-, hc⟩
    · decide
    · exact ne_of_isDigit hc (by decide)
  -- a number begins with no letter, so no keyword is read there
  have hother : ∀ word, IsKeyword word → keyword? word (c :: (cs ++ rest)) = none := by
    intro word hw
    refine keyword?_other hw hblank fun hhead => ?_
    have hmem := List.mem_of_mem_head? hhead
    rw [(hw.2 _ hmem).1] at hletter
    cases hletter
  rw [htext, List.cons_append] at hnumber ⊢
  simp [scanLiteral, skipBlanks_cons _ hblank, hquote, hother "true" (by decide),
    hother "false" (by decide), hother "null" (by decide), hfirst, hnumber]

theorem scanLiteral_toText {v : Literal} {rest : List Char} (h : v.WellFormed) (hr : Ends rest) :
    scanLiteral (' ' :: (v.toText.toList ++ rest)) = .ok (v, rest) := by
  cases v with
  | text s =>
    have hskip : skipBlanks (' ' :: ((Literal.text s).toText.toList ++ rest)) =
        '"' :: (s.toList.flatMap escapeLiteralChar ++ '"' :: rest) := by
      simp [Literal.toText, quoteLiteral, skipBlanks_cons _ (show isBlank '"' = false by decide)]
    simp only [scanLiteral, hskip, scanText_escaped]
    simp [Except.map]
  | number d => exact scanLiteral_number h hr
  | bool b =>
    have hblank : isBlank 't' = false ∧ isBlank 'f' = false := by decide
    have ht := skipBlanks_cons ('r' :: 'u' :: 'e' :: rest) hblank.1
    have hf := skipBlanks_cons ('a' :: 'l' :: 's' :: 'e' :: rest) hblank.2
    have htrue : keyword? "true" ('t' :: 'r' :: 'u' :: 'e' :: rest) = some rest :=
      keyword?_word (by decide) hr.stops
    have hfalse : keyword? "false" ('f' :: 'a' :: 'l' :: 's' :: 'e' :: rest) = some rest :=
      keyword?_word (by decide) hr.stops
    have hother : keyword? "true" ('f' :: 'a' :: 'l' :: 's' :: 'e' :: rest) = none :=
      keyword?_other (by decide) (by decide) (by decide)
    cases b <;> simp [Literal.toText, scanLiteral, ht, hf, htrue, hfalse, hother]
  | null =>
    have hn := skipBlanks_cons ('u' :: 'l' :: 'l' :: rest) (show isBlank 'n' = false by decide)
    have hnull : keyword? "null" ('n' :: 'u' :: 'l' :: 'l' :: rest) = some rest :=
      keyword?_word (by decide) hr.stops
    have htrue : keyword? "true" ('n' :: 'u' :: 'l' :: 'l' :: rest) = none :=
      keyword?_other (by decide) (by decide) (by decide)
    have hfalse : keyword? "false" ('n' :: 'u' :: 'l' :: 'l' :: rest) = none :=
      keyword?_other (by decide) (by decide) (by decide)
    simp [Literal.toText, scanLiteral, hn, hnull, htrue, hfalse]

theorem scanTest_compare {a : AttributePath} {op : CompareOp} {v : Literal} {rest : List Char}
    (h : v.WellFormed) (hr : Ends rest) :
    scanTest a (' ' :: (op.word.toList ++ ' ' :: (v.toText.toList ++ rest))) =
      .ok (.compare a op v, rest) := by
  simp only [scanTest, keyword?_pr_operator, scanOperator_word]
  simp [scanLiteral_toText h hr, bind, Except.bind]

theorem scanTest_present {a : AttributePath} {rest : List Char} (hr : Stops rest) :
    scanTest a (' ' :: ("pr".toList ++ rest)) = .ok (.present a, rest) := by
  have hpr : keyword? "pr" ("pr".toList ++ rest) = some rest := keyword?_word (by decide) hr
  simp only [scanTest, keyword?_space, hpr]

end Filter

end Roster
