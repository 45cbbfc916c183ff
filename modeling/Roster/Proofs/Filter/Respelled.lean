import Roster.Proofs.Filter.Carrying
import Roster.Proofs.Success
import Roster.Proofs.Text.Unquoted

/-!
Filters read from texts that differ in the case of letters outside their quotes: keywords and
operators are the same, and names differ in their case alone.
-/

namespace Roster

open Filter (isQualifiedChar)

theorem isDigit_toLower (c : Char) : isDigit c.toLower = isDigit c := by
  rcases toLower_eq_or c with h | ⟨h, hl⟩
  · rw [h]
  · have hno {d : Char} (hd : isLetter d = true) : isDigit d = false := by
      rw [← Bool.not_eq_true]
      intro hdigit
      rw [Filter.not_isLetter_of_isDigit hdigit] at hd
      cases hd
    rw [hno h, hno hl]

theorem isNameChar_toLower (c : Char) : isNameChar c.toLower = isNameChar c := by
  simp only [isNameChar, isLetter_toLower, isDigit_toLower,
    beq_toLower (show isLetter '_' = false by decide),
    beq_toLower (show isLetter '-' = false by decide)]

theorem isNameStart_toLower (c : Char) : isNameStart c.toLower = isNameStart c := by
  simp only [isNameStart, isLetter_toLower, beq_toLower (show isLetter '$' = false by decide)]

theorem isAttributeName_foldUnquoted (q : Quoting) (cs : List Char) :
    isAttributeName (foldUnquoted q cs) = isAttributeName cs := by
  cases cs with
  | nil => rfl
  | cons c cs =>
    simp only [foldUnquoted_cons, isAttributeName, Quoting.fold_eq isNameStart_toLower,
      all_foldUnquoted isNameChar_toLower]

/-- The path with its names in small letters. -/
def AttributePath.respelled (a : AttributePath) : AttributePath :=
  ⟨a.schema.map Roster.respelled, Roster.respelled a.name, a.sub.map Roster.respelled⟩

namespace Filter

/-- The filter with its names in small letters. -/
def respelled : Filter → Filter
  | .compare a op v => .compare a.respelled op v
  | .present a => .present a.respelled
  | .select a f => .select a.respelled f.respelled
  | .and f g => .and f.respelled g.respelled
  | .or f g => .or f.respelled g.respelled
  | .not f => .not f.respelled
  | .group f => .group f.respelled

/-- The text in small letters outside of its quotes. -/
abbrev folded (cs : List Char) : List Char :=
  foldUnquoted .outside cs

/-- The second reader takes a text in small letters as the first takes the text itself. -/
def IgnoresCase {α : Type} (g : α → α) (p p' : Scan α) : Prop :=
  ∀ cs, Mirrors (fun _ => ()) (Prod.map g folded) (p cs) (p' (folded cs))

/-- A mark that stands first does so in the text in small letters, and no other character comes to
be that mark. -/
theorem folded_first {d : Char} (hd : isLetter d = false) (hquote : d ≠ '"') (cs : List Char) :
    (∃ rest, cs = d :: rest ∧ folded cs = d :: folded rest) ∨
      (∀ rest, cs ≠ d :: rest) ∧ ∀ rest, folded cs ≠ d :: rest := by
  cases cs with
  | nil => exact .inr ⟨fun _ => by simp, fun _ => by simp⟩
  | cons c cs =>
    have hfold := Quoting.fold_beq hd .outside c
    by_cases hc : c = d
    · subst hc
      exact .inl ⟨cs, rfl, foldUnquoted_mark hd hquote cs⟩
    · refine .inr ⟨fun rest heq => hc (List.cons.inj heq).1, fun rest heq => hc ?_⟩
      rw [folded, foldUnquoted_cons] at heq
      rw [(List.cons.inj heq).1, beq_self_eq_true] at hfold
      exact beq_iff_eq.mp hfold.symm

/-! ### Words -/

theorem quote_not_mem_letters {front : List Char} {word : String} (hw : IsKeyword word)
    (h : front.map Char.toLower = word.toList) : '"' ∉ front := by
  intro hmem
  exact absurd (hw.letter h hmem) (by decide)

theorem keyword?_folded {word : String} (hw : IsKeyword word) (cs : List Char) :
    keyword? word (folded cs) = (keyword? word cs).map folded := by
  simp only [keyword?, folded, skipBlanks_foldUnquoted, beginsWith_foldUnquoted]
  split
  case isFalse => rfl
  case isTrue h =>
    obtain ⟨front, rest, hsplit, hfront⟩ := beginsWith_iff.mp h
    have hlength : word.toList.length = front.length := by rw [← hfront, List.length_map]
    rw [hsplit, foldUnquoted_append_outside (quote_not_mem_letters hw hfront), hlength,
      List.drop_left, List.drop_left' (List.length_map _)]
    -- what stands behind a keyword is judged by its first character alone
    cases rest with
    | nil => rfl
    | cons c rest =>
      simp only [foldUnquoted_cons, Quoting.fold_eq isNameChar_toLower,
        Quoting.fold_beq (show isLetter '.' = false by decide),
        Quoting.fold_beq (show isLetter ':' = false by decide)]
      split <;> rfl

theorem step_of_isQualifiedChar {c : Char} (h : isQualifiedChar c = true) :
    Quoting.outside.step c = .outside := by
  have hne : c ≠ '"' := by
    rintro rfl
    exact absurd h (by decide)
  simp [Quoting.step, hne]

theorem scanName_ignoresCase : IgnoresCase Roster.respelled scanName scanName := by
  intro cs
  simp only [scanName, folded, skipBlanks_foldUnquoted]
  cases skipBlanks cs with
  | nil => exact .error rfl
  | cons c rest =>
    simp only [foldUnquoted_cons, Quoting.fold_eq isNameStart_toLower]
    split
    case isFalse => exact .error rfl
    case isTrue hc =>
      rw [step_of_isQualifiedChar (isQualifiedChar_of_isNameStart hc),
        takeWhile_foldUnquoted isNameChar_toLower,
        dropWhile_foldUnquoted isNameChar_toLower (by decide)]
      refine .of_ok (Prod.ext ?_ rfl)
      rw [Prod.map_fst, respelled_ofList, foldUnquoted_cons,
        step_of_isQualifiedChar (isQualifiedChar_of_isNameStart hc)]

/-! ### Attribute paths -/

theorem splitOnP_map {p : Char → Bool} (hp : ∀ c, p c.toLower = p c) (cs : List Char) :
    (cs.map Char.toLower).splitOnP p = (cs.splitOnP p).map (List.map Char.toLower) := by
  induction cs with
  | nil => rfl
  | cons c cs ih =>
    rw [List.map_cons, List.splitOnP_cons_eq_if_modifyHead, List.splitOnP_cons_eq_if_modifyHead,
      hp, ih]
    split
    · rfl
    · cases cs.splitOnP p <;> rfl

theorem splitLastColon_map (cs : List Char) :
    splitLastColon (cs.map Char.toLower) =
      ((splitLastColon cs).1.map Char.toLower, (splitLastColon cs).2.map Char.toLower) := by
  have hcolon : (fun c => c != ':') ∘ Char.toLower = fun c => c != ':' := by
    funext c
    simp only [Function.comp_apply, bne, beq_toLower (show isLetter ':' = false by decide)]
  simp only [splitLastColon, ← List.map_reverse, List.takeWhile_map, hcolon, List.length_map,
    List.map_take]

theorem isAttributeName_map (cs : List Char) :
    isAttributeName (cs.map Char.toLower) = isAttributeName cs := by
  cases cs with
  | nil => rfl
  | cons c cs =>
    have hchars : isNameChar ∘ Char.toLower = isNameChar := funext isNameChar_toLower
    simp only [List.map_cons, isAttributeName, isNameStart_toLower, List.all_map, hchars]

theorem respelled_name {cs : List Char} (h : '"' ∉ cs) :
    Roster.respelled (String.ofList cs) = String.ofList (cs.map Char.toLower) := by
  rw [respelled_ofList, foldUnquoted_outside h]

theorem quote_not_mem_qualified {cs : List Char} (h : cs.all isQualifiedChar = true) :
    '"' ∉ cs := fun hmem => absurd (List.all_eq_true.mp h _ hmem) (by decide)

theorem scanQualified_ignoresCase :
    IgnoresCase AttributePath.respelled scanQualified scanQualified := by
  intro cs
  have hfront : (cs.takeWhile isQualifiedChar).all isQualifiedChar = true := List.all_takeWhile
  have hquote := quote_not_mem_qualified hfront
  simp only [scanQualified, folded, takeWhile_foldUnquoted isQualifiedChar_toLower,
    dropWhile_foldUnquoted isQualifiedChar_toLower (show isQualifiedChar '"' = false by decide),
    foldUnquoted_outside hquote, splitLastColon_map,
    splitOnP_map (p := fun c => c == '.') (beq_toLower (by decide))]
  have hschema : '"' ∉ (splitLastColon (cs.takeWhile isQualifiedChar)).1 :=
    fun hmem => hquote (List.mem_of_mem_take hmem)
  have hname {name : List Char} (h : isAttributeName name = true) :
      Roster.respelled (String.ofList name) = String.ofList (name.map Char.toLower) :=
    respelled_name (not_mem_of_isAttributeName h (by decide))
  generalize (splitLastColon (cs.takeWhile isQualifiedChar)).2.splitOnP (· == '.') = parts
  rcases parts with _ | ⟨name, _ | ⟨sub, _ | ⟨more, parts⟩⟩⟩
  · exact .error rfl
  · simp only [List.map_cons, List.map_nil, isAttributeName_map]
    split
    case isTrue h =>
      exact .of_ok (by simp [AttributePath.respelled, respelled_name hschema, hname h])
    case isFalse => exact .error rfl
  · simp only [List.map_cons, List.map_nil, isAttributeName_map]
    split
    case isTrue h =>
      rw [Bool.and_eq_true] at h
      exact .of_ok (by
        simp [AttributePath.respelled, respelled_name hschema, hname h.1, hname h.2])
    case isFalse => exact .error rfl
  · exact .error rfl

theorem scanPath_ignoresCase : IgnoresCase AttributePath.respelled scanPath scanPath := by
  intro cs
  simp only [scanPath, folded, skipBlanks_foldUnquoted, beginsWith_foldUnquoted]
  split
  case isTrue => exact scanQualified_ignoresCase (skipBlanks cs)
  case isFalse =>
    refine (scanName_ignoresCase (skipBlanks cs)).bind ?_
    rintro ⟨name, rest⟩ -
    simp only [Prod.map_apply]
    rcases folded_first (show isLetter '.' = false by decide) (by decide) rest with
      ⟨inner, rfl, hfold⟩ | ⟨hrest, hfolded⟩
    · rw [hfold]
      refine (scanName_ignoresCase inner).bind ?_
      rintro ⟨sub, rest⟩ -
      exact .ok (AttributePath.mk none name (some sub), rest)
    · split
      case h_1 => exact absurd rfl (hrest _)
      case h_2 => exact .ok (AttributePath.mk none name none, rest)

/-! ### Operators and values -/

theorem ofWord?_congr {s t : String} (h : sameName s t = true) :
    CompareOp.ofWord? s = CompareOp.ofWord? t := by
  have hp : (fun op : CompareOp => sameName op.word s) = fun op => sameName op.word t := by
    funext op
    rw [Bool.eq_iff_iff, sameName_iff, sameName_iff, sameName_iff.mp h]
  rw [CompareOp.ofWord?, CompareOp.ofWord?, hp]

theorem scanOperator_ignoresCase : IgnoresCase id scanOperator scanOperator := by
  intro cs
  simp only [scanOperator, folded, skipBlanks_foldUnquoted, takeWhile_foldUnquoted isLetter_toLower,
    dropWhile_foldUnquoted isLetter_toLower (show isLetter '"' = false by decide),
    ← respelled_ofList]
  have hempty (word : List Char) :
      (Roster.respelled (String.ofList word)).isEmpty = (String.ofList word).isEmpty := by
    rw [Bool.eq_iff_iff, String.isEmpty_iff, String.isEmpty_iff, ← String.toList_inj,
      ← String.toList_inj, toList_respelled]
    exact foldUnquoted_eq_nil
  rw [hempty, ofWord?_congr (sameName_respelled _)]
  split
  case isTrue => exact .error rfl
  case isFalse =>
    split
    case h_1 op _ => exact .ok (op, (skipBlanks cs).dropWhile isLetter)
    case h_2 => exact .error rfl

/-- Inside of quotes nothing is folded, and a quoted text ends at the same quote. -/
theorem scanText_folded (cs : List Char) :
    Mirrors (fun _ => ()) (Prod.map id folded) (scanText cs)
      (scanText (foldUnquoted .inside cs)) := by
  induction cs using scanText.induct with
  | case1 => exact .error rfl
  | case2 rest => exact .ok ([], rest)
  | case3 => exact .error rfl
  | case4 c rest d hd ih =>
    have hread : foldUnquoted .inside ('\\' :: c :: rest) =
        '\\' :: c :: foldUnquoted .inside rest := rfl
    simp only [hread, scanText, hd]
    exact ih.map fun _ _ => rfl
  | case5 c rest hd =>
    have hread : foldUnquoted .inside ('\\' :: c :: rest) =
        '\\' :: c :: foldUnquoted .inside rest := rfl
    simp only [hread, scanText, hd]
    exact .error rfl
  | case6 c rest hquote hlone hslash ih =>
    have hc := isVerbatim_of_other hquote hlone hslash
    have hfold : foldUnquoted .inside (c :: rest) = c :: foldUnquoted .inside rest := by
      simp [foldUnquoted_cons, Quoting.step, Quoting.fold, hc.1, hc.2]
    rw [hfold, scanText_verbatim hc, scanText_verbatim hc]
    exact ih.map fun _ _ => rfl

/-! ### Numbers -/

/-- A rule of a number that takes the same front of a text in small letters, without quotes. -/
structure FoldsPiece (f : List Char → List Char) : Prop where
  folds (cs : List Char) : f (folded cs) = folded (f cs)
  unquoted (cs : List Char) : '"' ∉ f cs
  piece : Piece f

theorem FoldsPiece.drop {f : List Char → List Char} (hf : FoldsPiece f) (cs : List Char) :
    (folded cs).drop (f cs).length = folded (cs.drop (f cs).length) := by
  obtain ⟨rest, hrest⟩ := hf.piece.isPrefix cs
  have hunquoted := hf.unquoted cs
  generalize f cs = front at hrest hunquoted
  subst hrest
  rw [folded, foldUnquoted_append_outside hunquoted, List.drop_left,
    List.drop_left' (List.length_map _)]

theorem FoldsPiece.thenTake {f g : List Char → List Char} (hf : FoldsPiece f)
    (hg : FoldsPiece g) : FoldsPiece (thenTake f g) where
  folds cs := by
    rw [Filter.thenTake, Filter.thenTake, hf.folds, length_foldUnquoted, hf.drop, hg.folds]
    simp only [folded, foldUnquoted_append, Quoting.after_outside (hf.unquoted cs)]
  unquoted cs := by
    rw [Filter.thenTake, List.mem_append, not_or]
    exact ⟨hf.unquoted cs, hg.unquoted _⟩
  piece := hf.piece.thenTake hg.piece

theorem FoldsPiece.marked {p : Char → Bool} {f : List Char → List Char} (hf : FoldsPiece f)
    (hp : ∀ c, p c.toLower = p c) (hquote : p '"' = false) (hm : Piece (marked p f)) :
    FoldsPiece (marked p f) where
  folds cs := by
    cases cs with
    | nil => rfl
    | cons c cs =>
      simp only [folded, foldUnquoted_cons, Filter.marked, Quoting.fold_eq hp]
      split
      case isFalse => rfl
      case isTrue hc =>
        have hstep : Quoting.outside.step c = .outside := by
          have hne : c ≠ '"' := by
            rintro rfl
            simp [hquote] at hc
          simp [Quoting.step, hne]
        rw [foldUnquoted_cons, hstep, hf.folds]
  unquoted cs := by
    cases cs with
    | nil => simp [Filter.marked]
    | cons c cs =>
      rw [Filter.marked]
      split_ifs with hc
      · have hne : '"' ≠ c := by
          rintro rfl
          simp [hquote] at hc
        simpa [hne] using hf.unquoted cs
      · simp
  piece := hm

theorem foldsPiece_digits : FoldsPiece (List.takeWhile isDigit) where
  folds cs := takeWhile_foldUnquoted isDigit_toLower .outside cs
  unquoted cs hmem := absurd (List.mem_takeWhile_imp hmem) (by decide)
  piece := piece_digits

theorem signOf_folded (cs : List Char) : signOf (folded cs) = signOf cs := by
  cases cs with
  | nil => rfl
  | cons c cs =>
    have hsign (d : Char) (ds : List Char) :
        signOf (d :: ds) = if d == '-' || d == '+' then [d] else [] := by
      unfold signOf
      split <;> simp_all
    have hminus := Quoting.fold_beq (show isLetter '-' = false by decide) .outside c
    have hplus := Quoting.fold_beq (show isLetter '+' = false by decide) .outside c
    rw [folded, foldUnquoted_cons, hsign, hsign, hminus, hplus]
    split
    case isFalse => rfl
    case isTrue hc =>
      have hletter : isLetter c = false := by
        rcases Bool.or_eq_true_iff.mp hc with h | h <;> cases beq_iff_eq.mp h <;> decide
      rw [Quoting.fold_of_not_isLetter hletter]

theorem foldsPiece_signOf : FoldsPiece signOf where
  folds cs := by
    rw [signOf_folded]
    unfold signOf
    split <;> rfl
  unquoted cs := by
    unfold signOf
    split <;> simp
  piece := piece_signOf

theorem foldsPiece_plainNumber : FoldsPiece plainNumber := by
  have hpiece : Piece (marked (· == '.') (List.takeWhile isDigit)) :=
    piece_digits.marked fun c hc => by
      cases beq_iff_eq.mp hc
      decide
  exact (foldsPiece_signOf.thenTake foldsPiece_digits).thenTake
    (foldsPiece_digits.marked (beq_toLower (by decide)) (by decide) hpiece)

/-- The mark of an exponent is one in either case. -/
theorem isExponent_toLower (c : Char) :
    (c.toLower == 'e' || c.toLower == 'E') = (c == 'e' || c == 'E') := by
  have hsmall : 'e'.toNat = 101 := rfl
  have hlarge : 'E'.toNat = 69 := rfl
  rw [Bool.eq_iff_iff]
  simp only [Bool.or_eq_true, beq_iff_eq, ← Char.toNat_inj, toNat_toLower, hsmall, hlarge]
  split <;> omega

theorem foldsPiece_exponent : FoldsPiece exponent :=
  (foldsPiece_signOf.thenTake foldsPiece_digits).marked isExponent_toLower (by decide)
    piece_exponent

theorem foldsPiece_number : FoldsPiece (thenTake plainNumber exponent) :=
  foldsPiece_plainNumber.thenTake foldsPiece_exponent

theorem numberToken_folded (cs : List Char) :
    numberToken (folded cs) = (folded (numberToken cs).1, (numberToken cs).2) := by
  have hempty : (exponent (folded (cs.drop (plainNumber cs).length))).isEmpty =
      (exponent (cs.drop (plainNumber cs).length)).isEmpty := by
    rw [foldsPiece_exponent.folds, Bool.eq_iff_iff, List.isEmpty_iff, List.isEmpty_iff]
    exact foldUnquoted_eq_nil
  rw [numberToken_eq, numberToken_eq, foldsPiece_number.folds, foldsPiece_plainNumber.folds,
    length_foldUnquoted, foldsPiece_plainNumber.drop, hempty]

end Filter

namespace Decimal

theorem map_digits {cs : List Char} (h : cs.all isDigit = true) : cs.map Char.toLower = cs := by
  have hstays : ∀ c ∈ cs, c.toLower = id c := fun c hc =>
    toLower_of_not_isLetter (Filter.not_isLetter_of_isDigit (List.all_eq_true.mp h c hc))
  rw [List.map_congr_left hstays, List.map_id]

theorem isDigit_comp_toLower : isDigit ∘ Char.toLower = isDigit :=
  funext isDigit_toLower

theorem takeWhile_isDigit_map (cs : List Char) :
    (cs.map Char.toLower).takeWhile isDigit = cs.takeWhile isDigit := by
  rw [List.takeWhile_map, isDigit_comp_toLower, map_digits List.all_takeWhile]

theorem dropWhile_isDigit_map (cs : List Char) :
    (cs.map Char.toLower).dropWhile isDigit = (cs.dropWhile isDigit).map Char.toLower := by
  rw [List.dropWhile_map, isDigit_comp_toLower]

/-- What a plain decimal is behind its sign. -/
def unsigned? (negative : Bool) (body : List Char) : Option Decimal := do
  let whole := body.takeWhile isDigit
  let fraction ← match body.dropWhile isDigit with
    | [] => some []
    | '.' :: rest => if rest.all isDigit then some rest else none
    | _ => none
  if whole.isEmpty && fraction.isEmpty then none
  let n ← readWhole whole
  let (mantissa, scale) ← readFraction fraction n 0
  some (make negative mantissa scale)

theorem unsigned?_map (negative : Bool) (cs : List Char) :
    unsigned? negative (cs.map Char.toLower) = unsigned? negative cs := by
  simp only [unsigned?, takeWhile_isDigit_map, dropWhile_isDigit_map]
  cases cs.dropWhile isDigit with
  | nil => rfl
  | cons c rest =>
    by_cases hc : c = '.'
    · subst hc
      have hdot : '.'.toLower = '.' := by decide
      simp only [List.map_cons, hdot, List.all_map, isDigit_comp_toLower]
      split
      case isTrue h => rw [map_digits h]
      case isFalse => rfl
    · have hlower : c.toLower ≠ '.' := fun h => hc (eq_of_toLower_eq h (by decide))
      simp [hc, hlower]

/-- Whether a minus sign stands in front of a text, and what is behind it. -/
def behindSign : List Char → Bool × List Char
  | '-' :: rest => (true, rest)
  | rest => (false, rest)

theorem parsePlain?_behindSign (cs : List Char) :
    parsePlain? cs = unsigned? (behindSign cs).1 (behindSign cs).2 := rfl

theorem behindSign_map (cs : List Char) :
    behindSign (cs.map Char.toLower) = ((behindSign cs).1, (behindSign cs).2.map Char.toLower) := by
  cases cs with
  | nil => rfl
  | cons c cs =>
    by_cases hc : c = '-'
    · subst hc
      rfl
    · have hlower : c.toLower ≠ '-' := fun h => hc (eq_of_toLower_eq h (by decide))
      simp [behindSign, hc, hlower]

/-- Neither form of a decimal tells letters of either case apart. -/
theorem parsePlain?_map (cs : List Char) : parsePlain? (cs.map Char.toLower) = parsePlain? cs := by
  rw [parsePlain?_behindSign, parsePlain?_behindSign, behindSign_map, unsigned?_map]

theorem readExponent?_map (cs : List Char) :
    readExponent? (cs.map Char.toLower) = readExponent? cs := by
  have hdigits (xs : List Char) :
      (if (xs.map Char.toLower).isEmpty || !(xs.map Char.toLower).all isDigit then none
        else some (decimalValue (xs.map Char.toLower))) =
      if xs.isEmpty || !xs.all isDigit then none else some (decimalValue xs) := by
    simp only [List.isEmpty_map, List.all_map, isDigit_comp_toLower]
    split
    case isTrue => rfl
    case isFalse h =>
      simp only [Bool.or_eq_true, not_or, Bool.not_eq_true', Bool.not_eq_false] at h
      rw [map_digits h.2]
  cases cs with
  | nil => rfl
  | cons c cs =>
    by_cases hc : c = '+'
    · subst hc
      exact hdigits cs
    · have hlower : c.toLower ≠ '+' := fun h => hc (eq_of_toLower_eq h (by decide))
      have hwhole := hdigits (c :: cs)
      rw [List.map_cons] at hwhole
      simp only [readExponent?, List.map_cons]
      simpa [hc, hlower] using hwhole

theorem parseScientific?_map (cs : List Char) :
    parseScientific? (cs.map Char.toLower) = parseScientific? cs := by
  have hmark : (fun c => !(c == 'e' || c == 'E')) ∘ Char.toLower =
      fun c => !(c == 'e' || c == 'E') := by
    funext c
    simp only [Function.comp_apply, Filter.isExponent_toLower]
  simp only [parseScientific?, List.takeWhile_map, List.dropWhile_map, hmark, parsePlain?_map]
  congr 1
  funext base
  generalize cs.dropWhile (fun c => !(c == 'e' || c == 'E')) = ds
  rcases ds with _ | ⟨m, _ | ⟨c, ds⟩⟩
  · rfl
  · rfl
  · by_cases hc : c = '-'
    · subst hc
      have hminus : '-'.toLower = '-' := by decide
      simp only [List.map_cons, hminus, readExponent?_map]
    · have hlower : c.toLower ≠ '-' := fun h => hc (eq_of_toLower_eq h (by decide))
      have hwhole := readExponent?_map (c :: ds)
      rw [List.map_cons] at hwhole
      simp [hc, hlower, hwhole]

end Decimal

namespace Filter

theorem numberOf?_map (cs : List Char) (scientific : Bool) :
    numberOf? (cs.map Char.toLower) scientific = numberOf? cs scientific := by
  have hread (xs : List Char) :
      (if scientific then Decimal.parseScientific? (xs.map Char.toLower)
        else Decimal.parsePlain? (xs.map Char.toLower)) =
      if scientific then Decimal.parseScientific? xs else Decimal.parsePlain? xs := by
    rw [Decimal.parseScientific?_map, Decimal.parsePlain?_map]
  cases cs with
  | nil => rfl
  | cons c cs =>
    by_cases hc : c = '+'
    · subst hc
      exact hread cs
    · have hlower : c.toLower ≠ '+' := fun h => hc (eq_of_toLower_eq h (by decide))
      have hwhole := hread (c :: cs)
      rw [List.map_cons] at hwhole
      simp only [numberOf?, List.map_cons]
      simpa [hc, hlower] using hwhole

theorem scanNumber_ignoresCase : IgnoresCase id scanNumber scanNumber := by
  intro cs
  -- the token has no quote, so that folding it is lowering its letters
  have htoken := foldsPiece_number.unquoted cs
  have hdrop := foldsPiece_number.drop cs
  have hfirst : (numberToken cs).1 = thenTake plainNumber exponent cs := by rw [numberToken_eq]
  rw [← hfirst] at htoken hdrop
  simp only [scanNumber, numberToken_folded, length_foldUnquoted, hdrop]
  rw [folded, foldUnquoted_outside htoken, numberOf?_map]
  cases numberOf? (numberToken cs).1 (numberToken cs).2 with
  | none => exact .error rfl
  | some d => exact .ok (Literal.number d, cs.drop (numberToken cs).1.length)

/-! ### Values and tests -/

theorem folded_cons {c : Char} (hc : c ≠ '"') (cs : List Char) :
    folded (c :: cs) = c.toLower :: folded cs := by
  have hstep : Quoting.outside.step c = .outside := by simp [Quoting.step, hc]
  rw [folded, foldUnquoted_cons, hstep]
  rfl

theorem toLower_ne_quote {c : Char} (hc : c ≠ '"') : c.toLower ≠ '"' :=
  fun h => hc (eq_of_toLower_eq h (by decide))

theorem IgnoresCase.wordOr {word : String} {v : Literal} {scan : Scan Literal}
    (hw : IsKeyword word) (h : IgnoresCase id scan scan) :
    IgnoresCase id (wordOr word v scan) (wordOr word v scan) := by
  intro cs
  simp only [Filter.wordOr, keyword?_folded hw]
  cases keyword? word cs with
  | some rest => exact .ok (v, rest)
  | none => exact h cs

theorem scanDigits_ignoresCase : IgnoresCase id scanDigits scanDigits := by
  intro cs
  cases cs with
  | nil => exact .error rfl
  | cons c rest =>
    by_cases hc : c = '"'
    · subst hc
      exact .error rfl
    · have hread := scanNumber_ignoresCase (c :: rest)
      rw [folded_cons hc] at hread ⊢
      simp only [scanDigits, isDigit_toLower, beq_toLower (show isLetter '-' = false by decide),
        beq_toLower (show isLetter '+' = false by decide)]
      split
      case isTrue => exact hread
      case isFalse => exact .error rfl

theorem scanBare_ignoresCase : IgnoresCase id scanBare scanBare :=
  ((scanDigits_ignoresCase.wordOr (by decide)).wordOr (by decide)).wordOr (by decide)

theorem folded_head_ne_quote {cs : List Char} (h : cs.head? ≠ some '"') :
    (folded cs).head? ≠ some '"' := by
  cases cs with
  | nil => simp
  | cons c rest =>
    have hc : c ≠ '"' := by simpa using h
    simpa [folded_cons hc] using toLower_ne_quote hc

theorem scanLiteral_ignoresCase : IgnoresCase id scanLiteral scanLiteral := by
  intro cs
  have hskip : skipBlanks (folded cs) = folded (skipBlanks cs) := skipBlanks_foldUnquoted cs
  by_cases hquote : (skipBlanks cs).head? = some '"'
  · obtain ⟨rest, hrest⟩ := List.head?_eq_some_iff.mp hquote
    -- behind its quote the text of the literal stays as it is
    have hinside : folded ('"' :: rest) = '"' :: foldUnquoted .inside rest := rfl
    rw [hrest, hinside] at hskip
    rw [scanLiteral_quoted hrest, scanLiteral_quoted hskip]
    exact (scanText_folded rest).map fun _ _ => rfl
  · have hquote' : (skipBlanks (folded cs)).head? ≠ some '"' := hskip ▸ folded_head_ne_quote hquote
    rw [scanLiteral_bare hquote, scanLiteral_bare hquote', hskip]
    exact scanBare_ignoresCase (skipBlanks cs)

theorem scanTest_ignoresCase (a : AttributePath) :
    IgnoresCase Filter.respelled (scanTest a) (scanTest a.respelled) := by
  intro cs
  simp only [scanTest, keyword?_folded (show IsKeyword "pr" by decide)]
  cases keyword? "pr" cs with
  | some rest => exact .ok (Filter.present a, rest)
  | none =>
    refine (scanOperator_ignoresCase cs).bind ?_
    rintro ⟨op, rest⟩ -
    refine (scanLiteral_ignoresCase rest).bind ?_
    rintro ⟨value, rest⟩ -
    exact .ok (Filter.compare a op value, rest)

/-! ### Filters -/

variable {nested : Scan Filter}

theorem IgnoresCase.enclosed (hn : IgnoresCase Filter.respelled nested nested) {close : Char}
    (hclose : isLetter close = false) (hquote : close ≠ '"') (fault : Malformed) :
    IgnoresCase Filter.respelled (scanEnclosed nested close fault)
      (scanEnclosed nested close fault) := by
  intro cs
  refine (hn cs).bind ?_
  rintro ⟨inner, rest⟩ -
  simp only [Prod.map_apply, folded, skipBlanks_foldUnquoted]
  cases skipBlanks rest with
  | nil => exact .error rfl
  | cons c more =>
    simp only [foldUnquoted_cons, Quoting.fold_beq hclose]
    split
    case isFalse => exact .error rfl
    case isTrue hc =>
      cases beq_iff_eq.mp hc
      have hstep : Quoting.outside.step close = .outside := by simp [Quoting.step, hquote]
      rw [hstep]
      exact .ok (inner, more)

theorem groupedIfOr_respelled (f : Filter) :
    f.respelled.groupedIfOr = f.groupedIfOr.respelled := by
  cases f <;> rfl

theorem behindSelection_ignoresCase (a : AttributePath) (f : Filter) :
    IgnoresCase Filter.respelled (behindSelection a f)
      (behindSelection a.respelled f.respelled) := by
  intro cs
  have hend : Mirrors (ε := Fault) (fun _ => ()) (Prod.map Filter.respelled folded)
      (.ok (.select a f, (keyword? "pr" cs).getD cs))
      (.ok (.select a.respelled f.respelled, (keyword? "pr" (folded cs)).getD (folded cs))) := by
    rw [keyword?_folded (by decide), Option.getD_map]
    exact .ok (Filter.select a f, (keyword? "pr" cs).getD cs)
  rcases folded_first (show isLetter '.' = false by decide) (by decide) cs with
    ⟨rest, rfl, hfold⟩ | ⟨hcs, hfolded⟩
  · rw [hfold]
    refine (scanName_ignoresCase rest).bind ?_
    rintro ⟨name, rest⟩ -
    refine (scanTest_ignoresCase (.ofName name) rest).bind ?_
    rintro ⟨test, rest⟩ -
    refine .of_ok (Prod.ext ?_ rfl)
    simp only [Prod.map_fst, Filter.respelled, groupedIfOr_respelled]
  · unfold behindSelection
    split
    case h_1 => exact absurd rfl (hcs _)
    case h_2 => exact hend

theorem IgnoresCase.attribute (hn : IgnoresCase Filter.respelled nested nested) :
    IgnoresCase Filter.respelled (scanAttribute nested) (scanAttribute nested) := by
  intro cs
  refine (scanPath_ignoresCase cs).bind ?_
  rintro ⟨a, rest⟩ -
  have htest := scanTest_ignoresCase a rest
  simp only [Prod.map_apply]
  rcases folded_first (show isLetter '[' = false by decide) (by decide) rest with
    ⟨inner, rfl, hfold⟩ | ⟨hrest, hfolded⟩
  · have hsub : a.respelled.sub.isSome = a.sub.isSome := Option.isSome_map
    simp only [hfold, hsub]
    split
    case isTrue => exact .error rfl
    case isFalse =>
      refine (hn.enclosed (by decide) (by decide) _ inner).bind ?_
      rintro ⟨f, rest⟩ -
      exact behindSelection_ignoresCase a f rest
  · split
    case h_1 => exact absurd rfl (hrest _)
    case h_2 => exact htest

theorem IgnoresCase.operand (hn : IgnoresCase Filter.respelled nested nested) :
    IgnoresCase Filter.respelled (scanOperand nested) (scanOperand nested) := by
  intro cs
  -- a parenthesis and what is in it, behind `not` or by itself
  have hparen (fault : Malformed) (join : Filter → Filter)
      (hjoin : ∀ f, (join f).respelled = join f.respelled) (rest : List Char) :
      Mirrors (fun _ => ()) (Prod.map Filter.respelled folded)
        ((scanEnclosed nested ')' fault rest).map fun r => (join r.1, r.2))
        ((scanEnclosed nested ')' fault (folded rest)).map fun r => (join r.1, r.2)) :=
    (hn.enclosed (by decide) (by decide) fault rest).map fun r _ => Prod.ext (hjoin r.1) rfl
  simp only [scanOperand, keyword?_folded (show IsKeyword "not" by decide), folded,
    skipBlanks_foldUnquoted]
  cases keyword? "not" cs with
  | some rest =>
    simp only [Option.map_some, folded, skipBlanks_foldUnquoted]
    generalize skipBlanks rest = ds
    rcases folded_first (show isLetter '(' = false by decide) (by decide) ds with
      ⟨inner, rfl, hfold⟩ | ⟨hds, hfolded⟩
    · simp only [hfold]
      exact hparen .unclosedNot .not (fun _ => rfl) inner
    · split
      case h_1 => exact absurd rfl (hds _)
      case h_2 => exact .error rfl
  | none =>
    simp only [Option.map_none]
    have hattribute := hn.attribute (skipBlanks cs)
    generalize skipBlanks cs = ds at hattribute
    rcases folded_first (show isLetter '(' = false by decide) (by decide) ds with
      ⟨inner, rfl, hfold⟩ | ⟨hds, hfolded⟩
    · simp only [hfold]
      exact hparen .unclosedGroup .group (fun _ => rfl) inner
    · split
      case h_1 => exact absurd rfl (hds _)
      case h_2 => exact hattribute

variable {operand : Scan Filter} {word : String} {join : Filter → Filter → Filter}

theorem IgnoresCase.chain (ho : IgnoresCase Filter.respelled operand operand)
    (hw : IsKeyword word)
    (hjoin : ∀ f g, (join f g).respelled = join f.respelled g.respelled) (fuel : Nat)
    (left : Filter) : IgnoresCase Filter.respelled (scanChain word join operand fuel left)
      (scanChain word join operand fuel left.respelled) := by
  induction fuel generalizing left with
  | zero => exact fun cs => .ok (left, cs)
  | succ fuel ih =>
    intro cs
    simp only [scanChain, keyword?_folded hw]
    cases keyword? word cs with
    | none => exact .ok (left, cs)
    | some rest =>
      refine (ho rest).bind ?_
      rintro ⟨right, rest⟩ -
      have hrest := ih (join left right) rest
      rwa [hjoin] at hrest

theorem IgnoresCase.joined (ho : IgnoresCase Filter.respelled operand operand)
    (hw : IsKeyword word)
    (hjoin : ∀ f g, (join f g).respelled = join f.respelled g.respelled) :
    IgnoresCase Filter.respelled (scanJoined word join operand) (scanJoined word join operand) := by
  intro cs
  refine (ho cs).bind ?_
  rintro ⟨left, rest⟩ -
  simp only [Prod.map_apply, length_foldUnquoted]
  exact ho.chain hw hjoin rest.length left rest

theorem scanWithin_ignoresCase (depth : Nat) :
    IgnoresCase Filter.respelled (scanWithin depth) (scanWithin depth) := by
  induction depth with
  | zero => exact fun _ => .error rfl
  | succ depth ih =>
    -- filters joined by `or`, each of which is joined by `and` from operands one level deeper
    have hand : IsKeyword "and" := by decide
    have hor : IsKeyword "or" := by decide
    have hchain : IgnoresCase Filter.respelled
        (scanJoined "and" .and (scanOperand (scanWithin depth)))
        (scanJoined "and" .and (scanOperand (scanWithin depth))) :=
      ih.operand.joined hand fun _ _ => rfl
    exact hchain.joined hor fun _ _ => rfl

theorem scanAll_folded (cs : List Char) :
    Mirrors (fun _ => ()) Filter.respelled (scanAll cs) (scanAll (folded cs)) := by
  refine (scanWithin_ignoresCase _ cs).bind ?_
  rintro ⟨f, rest⟩ -
  simp only [Prod.map_apply, folded, skipBlanks_foldUnquoted]
  cases skipBlanks rest with
  | nil => exact .ok f
  | cons c more => exact .error rfl

/-- A text in small letters outside its quotes is read as the filter with its names in small
letters, or refused as the text is. -/
theorem parse_respelled (s : String) :
    Mirrors (fun _ => ()) Filter.respelled (parse s) (parse (Roster.respelled s)) := by
  simp only [parse, toList_respelled, utf8Length_foldUnquoted]
  split
  case isTrue => exact .error rfl
  case isFalse =>
    rcases (scanAll_folded s.toList).outcomes with ⟨e, e', he, he', -⟩ | ⟨f, hf, hf'⟩
    · rw [he, he']
      exact .error rfl
    · rw [hf, hf']
      exact .ok f

/-! ### Texts of filters -/

theorem respelled_bracketed (f : Filter) : f.respelled.bracketed = f.bracketed.respelled := by
  induction f with
  | compare a op v => cases h : a.sub <;> simp [respelled, bracketed, AttributePath.respelled, h,
      AttributePath.ofName]
  | present a => cases h : a.sub <;> simp [respelled, bracketed, AttributePath.respelled, h,
      AttributePath.ofName]
  | select a f ih => simp only [respelled, bracketed, ih]
  | and f g ihf ihg => simp only [respelled, bracketed, ihf, ihg]
  | or f g ihf ihg => simp only [respelled, bracketed, ihf, ihg]
  | not f ih => simp only [respelled, bracketed, ih]
  | group f ih => simp only [respelled, bracketed, ih]

end Filter

end Roster
