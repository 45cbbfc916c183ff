import Mathlib.Data.List.DropRight
import Roster.Proofs.Filter.Reading

/-!
How far a reader reads. What it leaves is an end of its text, and it reads the same when blanks and
a closing character are put behind the text.
-/

namespace Roster

namespace Filter

/-! ### What may stand behind a text -/

/-- Blanks, and behind them the end or a closing character. -/
def Closes (s : List Char) : Prop :=
  ∀ c ∈ (skipBlanks s).head?, c = ')' ∨ c = ']'

theorem closes_nil : Closes [] := by
  simp [Closes, skipBlanks]

theorem closes_cons {c : Char} (hc : c = ')' ∨ c = ']') (s : List Char) : Closes (c :: s) := by
  have hblank : isBlank c = false := by
    rcases hc with rfl | rfl <;> decide
  rw [Closes, skipBlanks_cons s hblank]
  rintro d ⟨⟩
  exact hc

variable {s : List Char}

theorem closes_blanks {bs : List Char} (hb : skipBlanks bs = []) (hs : Closes s) :
    Closes (bs ++ s) := by
  have hskip : skipBlanks (bs ++ s) = skipBlanks s := by
    rw [skipBlanks, List.dropWhile_append, show bs.dropWhile isBlank = [] from hb]
    rfl
  rwa [Closes, hskip]

/-- A text that closes begins with no character of a token. -/
theorem Closes.stops (hs : Closes s) : Stops s := by
  intro c hc
  rw [Bool.eq_false_iff]
  intro hq
  cases s with
  | nil => cases hc
  | cons d s =>
    cases hc
    have hfirst : c = ')' ∨ c = ']' := by
      apply hs
      rw [skipBlanks_cons s (not_isBlank_of_isQualifiedChar hq)]
      rfl
    rcases hfirst with rfl | rfl <;> exact absurd hq (by decide)

theorem Closes.head_ne (hs : Closes s) {c : Char} (hblank : isBlank c = false)
    (hc : c ≠ ')' ∧ c ≠ ']') : ∀ rest, s ≠ c :: rest := by
  rintro rest rfl
  have hfirst : c = ')' ∨ c = ']' := by
    apply hs
    rw [skipBlanks_cons rest hblank]
    rfl
  exact hfirst.elim hc.1 hc.2

/-- What closes puts no other character in front of a text that does not begin with it. -/
theorem Closes.append_ne (hs : Closes s) {c : Char} (hblank : isBlank c = false)
    (hc : c ≠ ')' ∧ c ≠ ']') {xs : List Char} (hxs : ∀ rest, xs ≠ c :: rest) :
    ∀ rest, xs ++ s ≠ c :: rest := by
  intro rest hrest
  cases xs with
  | nil => exact hs.head_ne hblank hc rest hrest
  | cons d xs =>
    cases hrest
    exact hxs xs rfl

theorem Stops.not_isLetter {rest : List Char} (h : Stops rest) :
    ∀ c ∈ rest.head?, isLetter c = false := by
  intro c hc
  have hname := h.not_isNameChar c hc
  simp only [isNameChar, Bool.or_eq_false_iff] at hname
  exact hname.1.1.1

theorem Stops.not_isDigit {rest : List Char} (h : Stops rest) :
    ∀ c ∈ rest.head?, isDigit c = false := by
  intro c hc
  have hname := h.not_isNameChar c hc
  simp only [isNameChar, Bool.or_eq_false_iff] at hname
  exact hname.1.1.2

theorem takeWhile_behind {p : Char → Bool} (hs : ∀ c ∈ s.head?, p c = false) (xs : List Char) :
    (xs ++ s).takeWhile p = xs.takeWhile p := by
  have hnone : s.takeWhile p = [] := by
    cases s with
    | nil => rfl
    | cons c s => simp [hs c rfl]
  rw [List.takeWhile_append, hnone, List.append_nil]
  split
  case isTrue hall => exact ((List.takeWhile_prefix p).eq_of_length hall).symm
  case isFalse => rfl

theorem dropWhile_behind {p : Char → Bool} (hs : ∀ c ∈ s.head?, p c = false) (xs : List Char) :
    (xs ++ s).dropWhile p = xs.dropWhile p ++ s := by
  have hself : s.dropWhile p = s := by
    cases s with
    | nil => rfl
    | cons c s => simp [hs c rfl]
  rw [List.dropWhile_append, hself]
  split
  case isTrue hnil => simp [List.isEmpty_iff.mp hnil]
  case isFalse => rfl

theorem skipBlanks_behind {xs rest : List Char} {c : Char} (h : skipBlanks xs = c :: rest)
    (s : List Char) : skipBlanks (xs ++ s) = c :: (rest ++ s) := by
  have hdrop : xs.dropWhile isBlank = c :: rest := h
  simp [skipBlanks, List.dropWhile_append, hdrop]

theorem skipBlanks_append {xs : List Char} (h : skipBlanks xs ≠ []) (s : List Char) :
    skipBlanks (xs ++ s) = skipBlanks xs ++ s := by
  obtain ⟨c, rest, hskip⟩ := List.exists_cons_of_ne_nil h
  rw [skipBlanks_behind hskip, hskip, List.cons_append]

theorem skipBlanks_suffix (cs : List Char) : skipBlanks cs <:+ cs :=
  List.dropWhile_suffix isBlank

theorem skipped_suffix {xs rest : List Char} {c : Char} (h : skipBlanks xs = c :: rest) :
    rest <:+ xs :=
  (List.suffix_cons c rest).trans (h ▸ skipBlanks_suffix xs)

/-! ### Keywords -/

theorem keyword?_iff {word : String} {cs rest : List Char} : keyword? word cs = some rest ↔
    ∃ front, skipBlanks cs = front ++ rest ∧ front.map Char.toLower = word.toList ∧
      ∀ c ∈ rest.head?, isNameChar c = false ∧ c ≠ '.' ∧ c ≠ ':' := by
  constructor
  · intro h
    simp only [keyword?] at h
    split at h
    case isFalse => cases h
    case isTrue hbegins =>
      obtain ⟨front, tail, hcs, hfront⟩ := beginsWith_iff.mp hbegins
      have hlength : word.toList.length = front.length := by rw [← hfront, List.length_map]
      rw [hcs, hlength, List.drop_left] at h
      cases tail with
      | nil =>
        cases h
        exact ⟨front, hcs, hfront, by simp⟩
      | cons c tail =>
        dsimp only at h
        split at h
        case isTrue => cases h
        case isFalse hstop =>
          cases h
          simp only [Bool.or_eq_true, not_or, Bool.not_eq_true, beq_iff_eq] at hstop
          exact ⟨front, hcs, hfront, by simpa using ⟨hstop.1.1, hstop.1.2, hstop.2⟩⟩
  · rintro ⟨front, hcs, hfront, hstop⟩
    have hbegins : beginsWith word.toList (front ++ rest) = true :=
      beginsWith_iff.mpr ⟨front, rest, rfl, hfront⟩
    have hlength : word.toList.length = front.length := by rw [← hfront, List.length_map]
    simp only [keyword?, hcs, hbegins, if_true, hlength, List.drop_left]
    cases rest with
    | nil => rfl
    | cons c rest =>
      obtain ⟨hname, hdot, hcolon⟩ := hstop c rfl
      simp [hname, hdot, hcolon]

theorem keyword?_suffix {word : String} {cs rest : List Char} (h : keyword? word cs = some rest) :
    rest <:+ cs := by
  obtain ⟨front, hcs, -, -⟩ := keyword?_iff.mp h
  exact ((List.suffix_append front rest).trans (hcs ▸ List.suffix_refl _)).trans
    (skipBlanks_suffix cs)

/-- A keyword takes up a part of the text. -/
theorem keyword?_shorter {word : String} (hw : IsKeyword word) {cs rest : List Char}
    (h : keyword? word cs = some rest) : rest.length < cs.length := by
  obtain ⟨front, hcs, hfront, -⟩ := keyword?_iff.mp h
  have hlength := congrArg List.length hcs
  have hfirst : 0 < front.length := List.length_pos_iff.mpr (hw.written hfront)
  have hskip := skipBlanks_length_le cs
  rw [List.length_append] at hlength
  omega

/-- A keyword is found in a text exactly when it is found with something closing behind it. -/
theorem keyword?_behind {word : String} (hw : IsKeyword word) (hs : Closes s) (xs : List Char) :
    keyword? word (xs ++ s) = (keyword? word xs).map (· ++ s) := by
  have hstop := hs.stops
  -- the letters of the keyword do not reach into what closes
  have within {front ys rest : List Char} (hfront : front.map Char.toLower = word.toList)
      (h : ys ++ s = front ++ rest) : ∃ zs, ys = front ++ zs ∧ rest = zs ++ s := by
    rcases List.append_eq_append_iff.mp h with ⟨more, rfl, htail⟩ | ⟨more, rfl, rfl⟩
    · cases more with
      | nil => exact ⟨[], by simp, by simpa using htail.symm⟩
      | cons c more =>
        have hletter : isLetter c = true := hw.letter hfront (by simp)
        exact absurd hletter (by simp [hstop.not_isLetter c (htail ▸ rfl)])
    · exact ⟨more, rfl, rfl⟩
  apply Option.ext
  intro rest
  rw [Option.map_eq_some_iff, keyword?_iff]
  constructor
  · rintro ⟨front, hcs, hfront, hrest⟩
    cases hxs : skipBlanks xs with
    | nil =>
      -- behind blanks alone the keyword would have to stand in what closes
      have hskip : skipBlanks (xs ++ s) = skipBlanks s := by
        rw [skipBlanks, List.dropWhile_append, show xs.dropWhile isBlank = [] from hxs]
        rfl
      rw [hskip] at hcs
      cases front with
      | nil => exact absurd hfront.symm hw.1
      | cons c front =>
        have hletter : isLetter c = true := hw.letter hfront List.mem_cons_self
        rcases hs c (by simp [hcs]) with rfl | rfl <;> exact absurd hletter (by decide)
    | cons c cs =>
      rw [skipBlanks_behind hxs, ← List.cons_append] at hcs
      obtain ⟨zs, hsplit, rfl⟩ := within hfront hcs
      refine ⟨zs, keyword?_iff.mpr ⟨front, hxs.trans hsplit, hfront, fun d hd => ?_⟩, rfl⟩
      apply hrest
      rw [List.head?_append, hd]
      rfl
  · rintro ⟨zs, hzs, rfl⟩
    obtain ⟨front, hcs, hfront, hrest⟩ := keyword?_iff.mp hzs
    obtain ⟨c, front, rfl⟩ := List.exists_cons_of_ne_nil (hw.written hfront)
    refine ⟨c :: front, ?_, hfront, fun d hd => ?_⟩
    · simpa using skipBlanks_behind hcs s
    · rw [List.head?_append] at hd
      rcases Option.or_eq_some_iff.mp hd with hd | ⟨-, hd⟩
      · exact hrest d hd
      · have hq := hstop d hd
        simp only [isQualifiedChar, Bool.or_eq_false_iff, beq_eq_false_iff_ne] at hq
        exact ⟨hq.1.1.1, hq.1.2, hq.1.1.2⟩

theorem Closes.keyword?_none (hs : Closes s) {word : String} (hw : IsKeyword word) :
    keyword? word s = none := by
  have hbehind := keyword?_behind hw hs []
  rwa [List.nil_append, keyword?_nil hw] at hbehind

/-! ### Readers -/

/-- What the first reader leaves is an end of its text, and the second reads the same with something
closing behind the text. -/
def Carries {α : Type} (scan scan' : Scan α) : Prop :=
  ∀ ⦃xs x ys⦄, scan xs = .ok (x, ys) →
    ys <:+ xs ∧ ∀ ⦃s⦄, Closes s → scan' (xs ++ s) = .ok (x, ys ++ s)

theorem scanName_carries : Carries scanName scanName := by
  intro xs name ys h
  obtain ⟨c, rest, hskip, hstart, rfl, rfl⟩ := scanName_iff.mp h
  refine ⟨(List.dropWhile_suffix isNameChar).trans (skipped_suffix hskip), fun s hs => ?_⟩
  have hstop := hs.stops.not_isNameChar
  refine scanName_iff.mpr ⟨c, rest ++ s, skipBlanks_behind hskip s, hstart, ?_, ?_⟩
  · rw [takeWhile_behind hstop]
  · rw [dropWhile_behind hstop]

theorem scanQualified_carries : Carries scanQualified scanQualified := by
  intro xs a ys h
  obtain ⟨hpath, rfl⟩ := scanQualified_iff.mp h
  refine ⟨List.dropWhile_suffix isQualifiedChar, fun s hs => scanQualified_iff.mpr ⟨?_, ?_⟩⟩
  · rw [takeWhile_behind hs.stops, hpath]
  · rw [dropWhile_behind hs.stops]

theorem isQualifiedChar_toLower (c : Char) : isQualifiedChar c.toLower = isQualifiedChar c := by
  have hqualified {d : Char} (h : isLetter d = true) : isQualifiedChar d = true :=
    isQualifiedChar_of_isNameChar (isNameChar_of_isLetter h)
  rcases toLower_eq_or c with h | ⟨h, hlower⟩
  · rw [h]
  · rw [hqualified h, hqualified hlower]

theorem beginsWith_behind {word : List Char} (hword : word.all isQualifiedChar = true)
    (hs : Closes s) (xs : List Char) : beginsWith word (xs ++ s) = beginsWith word xs := by
  rw [Bool.eq_iff_iff, beginsWith_iff, beginsWith_iff]
  constructor
  · rintro ⟨front, rest, happend, hfront⟩
    rcases List.append_eq_append_iff.mp happend with ⟨more, rfl, htail⟩ | ⟨more, rfl, -⟩
    · cases more with
      | nil => exact ⟨xs, [], by simp, by simpa using hfront⟩
      | cons c more =>
        -- the word would have to go on in what closes
        have hmem : c.toLower ∈ word := hfront ▸ List.mem_map_of_mem (by simp)
        have hq := List.all_eq_true.mp hword _ hmem
        rw [isQualifiedChar_toLower] at hq
        exact absurd hq (by simp [hs.stops c (htail ▸ rfl)])
    · exact ⟨front, more, rfl, hfront⟩
  · rintro ⟨front, rest, rfl, hfront⟩
    exact ⟨front, rest ++ s, by simp, hfront⟩

theorem scanPath_carries : Carries scanPath scanPath := by
  intro xs a ys h
  have hne : skipBlanks xs ≠ [] := by
    intro hnil
    simp only [scanPath, hnil] at h
    cases h
  have hurn {s : List Char} (hs : Closes s) : beginsWith "urn:".toList (skipBlanks (xs ++ s)) =
      beginsWith "urn:".toList (skipBlanks xs) := by
    rw [skipBlanks_append hne, beginsWith_behind (by decide) hs]
  cases scanPath_iff.mp h with
  | qualified hbegins hread =>
    obtain ⟨hsuffix, hcarries⟩ := scanQualified_carries hread
    refine ⟨hsuffix.trans (skipBlanks_suffix xs), fun s hs => scanPath_iff.mpr (.qualified ?_ ?_)⟩
    · rw [hurn hs, hbegins]
    · rw [skipBlanks_append hne]
      exact hcarries hs
  | dotted hbegins hname hsub =>
    obtain ⟨hsuffix, hname⟩ := scanName_carries hname
    obtain ⟨hlast, hsub⟩ := scanName_carries hsub
    refine ⟨((hlast.trans (List.suffix_cons ..)).trans hsuffix).trans (skipBlanks_suffix xs),
      fun s hs => scanPath_iff.mpr (.dotted ?_ ?_ (hsub hs))⟩
    · rw [hurn hs, hbegins]
    · rw [skipBlanks_append hne]
      exact hname hs
  | named hbegins hname hdot =>
    obtain ⟨hsuffix, hname⟩ := scanName_carries hname
    refine ⟨hsuffix.trans (skipBlanks_suffix xs), fun s hs => scanPath_iff.mpr
      (.named ?_ ?_ (hs.append_ne (by decide) (by decide) hdot))⟩
    · rw [hurn hs, hbegins]
    · rw [skipBlanks_append hne]
      exact hname hs

theorem scanOperator_carries : Carries scanOperator scanOperator := by
  intro xs op ys h
  obtain ⟨hop, rfl⟩ := scanOperator_iff.mp h
  have hne : skipBlanks xs ≠ [] := by
    intro hnil
    simp only [scanOperator, hnil] at h
    cases h
  refine ⟨(List.dropWhile_suffix isLetter).trans (skipBlanks_suffix xs), fun s hs =>
    scanOperator_iff.mpr ⟨?_, ?_⟩⟩
  · rw [skipBlanks_append hne, takeWhile_behind hs.stops.not_isLetter, hop]
  · rw [skipBlanks_append hne, dropWhile_behind hs.stops.not_isLetter]

/-- A quoted text ends with its quote, and is the same whatever follows. -/
theorem scanText_split {xs t ys : List Char} (h : scanText xs = .ok (t, ys)) :
    ∃ front, xs = front ++ '"' :: ys ∧ ∀ zs, scanText (front ++ '"' :: zs) = .ok (t, zs) := by
  induction xs using scanText.induct generalizing t with
  | case1 => cases h
  | case2 rest =>
    cases h
    exact ⟨[], rfl, fun zs => rfl⟩
  | case3 => cases h
  | case4 c rest d hd ih =>
    simp only [scanText, hd] at h
    obtain ⟨r, hr, h⟩ := map_eq_ok.mp h
    cases h
    obtain ⟨front, hfront, hbehind⟩ := ih hr
    refine ⟨'\\' :: c :: front, by simp [hfront], fun zs => ?_⟩
    simp only [List.cons_append, scanText, hd, hbehind zs]
    rfl
  | case5 c rest hnone =>
    simp [scanText, hnone] at h
  | case6 c rest hquote hlone hslash ih =>
    have hc := isVerbatim_of_other hquote hlone hslash
    rw [scanText_verbatim hc] at h
    obtain ⟨r, hr, h⟩ := map_eq_ok.mp h
    cases h
    obtain ⟨front, hfront, hbehind⟩ := ih hr
    refine ⟨c :: front, by simp [hfront], fun zs => ?_⟩
    rw [List.cons_append, scanText_verbatim hc, hbehind zs]
    rfl

theorem scanText_behind {xs t ys : List Char} (h : scanText xs = .ok (t, ys)) :
    (∃ front, xs = front ++ '"' :: ys) ∧ ∀ s, scanText (xs ++ s) = .ok (t, ys ++ s) := by
  obtain ⟨front, rfl, hread⟩ := scanText_split h
  exact ⟨⟨front, rfl⟩, fun s => by simpa using hread (ys ++ s)⟩

end Filter

end Roster
