import Roster.Proofs.Expression.Balanced
import Roster.Proofs.Filter.Carrying
import Roster.Proofs.Filter.Exact

/-!
The text of a filter as it was given is balanced, not only the text it is written as: whatever a
reader takes off a text opens and closes its quotes, brackets and parentheses.
-/

namespace Roster

namespace Expression

open Filter (keyword? scanName scanPath scanOperator scanText scanNumber scanLiteral scanTest
  scanEnclosed scanAttribute scanOperand scanChain scanJoined scanWithin numberToken signOf
  IsKeyword)

/-- What is left of a text behind balanced text. -/
def Leaves (xs ys : List Char) : Prop :=
  ∃ front, Balanced front ∧ xs = front ++ ys

theorem Leaves.refl (xs : List Char) : Leaves xs xs :=
  ⟨[], .nil, rfl⟩

theorem Leaves.trans {xs ys zs : List Char} (h : Leaves xs ys) (h' : Leaves ys zs) :
    Leaves xs zs := by
  obtain ⟨front, hfront, rfl⟩ := h
  obtain ⟨more, hmore, rfl⟩ := h'
  exact ⟨front ++ more, hfront.append hmore, by simp⟩

theorem leaves_front {front : List Char} (h : ∀ c ∈ front, isMark c = false) (ys : List Char) :
    Leaves (front ++ ys) ys :=
  ⟨front, .ofPlain (by simpa using h), rfl⟩

theorem leaves_cons {c : Char} (hc : isMark c = false) (ys : List Char) : Leaves (c :: ys) ys := by
  have hplain : ∀ d ∈ [c], isMark d = false := by simpa using hc
  exact leaves_front hplain ys

theorem leaves_dropWhile {p : Char → Bool} (hp : ∀ c, p c = true → isMark c = false)
    (cs : List Char) : Leaves cs (cs.dropWhile p) := by
  have hplain : ∀ c ∈ cs.takeWhile p, isMark c = false :=
    fun c hc => hp c (List.mem_takeWhile_imp hc)
  have h := leaves_front hplain (cs.dropWhile p)
  rwa [List.takeWhile_append_dropWhile] at h

theorem isMark_of_isBlank {c : Char} (h : isBlank c = true) : isMark c = false := by
  rw [Bool.eq_false_iff]
  intro hmark
  simp only [isMark, Bool.or_eq_true, beq_iff_eq] at hmark
  rcases hmark with (((rfl | rfl) | rfl) | rfl) | rfl <;> exact absurd h (by decide)

theorem leaves_skipBlanks (cs : List Char) : Leaves cs (skipBlanks cs) :=
  leaves_dropWhile (fun _ => isMark_of_isBlank) cs

theorem leaves_skipped {cs rest : List Char} (h : skipBlanks cs = rest) : Leaves cs rest :=
  h ▸ leaves_skipBlanks cs

theorem leaves_keyword {word : String} (hw : IsKeyword word) {cs rest : List Char}
    (h : keyword? word cs = some rest) : Leaves cs rest := by
  obtain ⟨front, hcs, hfront, -⟩ := Filter.keyword?_iff.mp h
  have hletters : ∀ c ∈ front, isMark c = false :=
    fun c hc => isMark_of_isLetter (hw.letter hfront hc)
  exact (leaves_skipped hcs).trans (leaves_front hletters rest)

/-- What a reader takes off a text is balanced. -/
def Consumes {α : Type} (scan : Filter.Scan α) : Prop :=
  ∀ ⦃xs x ys⦄, scan xs = .ok (x, ys) → Leaves xs ys

theorem scanName_consumes : Consumes scanName := by
  intro xs name ys h
  obtain ⟨c, rest, hskip, hstart, rfl, rfl⟩ := Filter.scanName_iff.mp h
  have hc : isMark c = false :=
    isMark_of_isQualifiedChar (isQualifiedChar_of_isNameStart hstart)
  exact ((leaves_skipped hskip).trans (leaves_cons hc rest)).trans
    (leaves_dropWhile (fun _ => isMark_of_isNameChar) rest)

theorem scanPath_consumes : Consumes scanPath := by
  intro xs a ys h
  refine (leaves_skipBlanks xs).trans ?_
  cases Filter.scanPath_iff.mp h with
  | qualified hurn hread =>
    obtain ⟨-, rfl⟩ := Filter.scanQualified_iff.mp hread
    exact leaves_dropWhile (fun _ => isMark_of_isQualifiedChar) _
  | dotted hurn hname hsub =>
    exact ((scanName_consumes hname).trans (leaves_cons (by decide) _)).trans
      (scanName_consumes hsub)
  | named hurn hname hdot => exact scanName_consumes hname

theorem scanOperator_consumes : Consumes scanOperator := by
  intro xs op ys h
  obtain ⟨-, rfl⟩ := Filter.scanOperator_iff.mp h
  exact (leaves_skipBlanks xs).trans (leaves_dropWhile (fun _ => isMark_of_isLetter) _)

/-- The text behind an opening quote ends with the quote that closes it. -/
theorem scanText_quoted {xs t ys : List Char} (h : scanText xs = .ok (t, ys)) :
    ∃ front, Quoted front ∧ xs = front ++ '"' :: ys := by
  induction xs using Roster.Filter.scanText.induct generalizing t with
  | case1 => cases h
  | case2 rest =>
    cases h
    exact ⟨[], .nil, rfl⟩
  | case3 => cases h
  | case4 c rest d hd ih =>
    simp only [scanText, hd] at h
    obtain ⟨r, hr, h⟩ := map_eq_ok.mp h
    cases h
    obtain ⟨front, hfront, rfl⟩ := ih hr
    exact ⟨'\\' :: c :: front, hfront.escape c, rfl⟩
  | case5 c rest hnone => simp [scanText, hnone] at h
  | case6 c rest hquote hlast hescape ih =>
    have hc := Filter.isVerbatim_of_other hquote hlast hescape
    rw [Filter.scanText_verbatim hc] at h
    obtain ⟨r, hr, h⟩ := map_eq_ok.mp h
    cases h
    obtain ⟨front, hfront, rfl⟩ := ih hr
    exact ⟨c :: front, hfront.verbatim hc.2 hc.1, rfl⟩

theorem isMark_of_isDigit {c : Char} (h : isDigit c = true) : isMark c = false :=
  isMark_of_isNameChar (by simp [isNameChar, h])

/-- A rule of a number that takes none of the characters which decide where a part ends. -/
def TakesPlain (f : List Char → List Char) : Prop :=
  ∀ cs, ∀ c ∈ f cs, isMark c = false

theorem TakesPlain.thenTake {f g : List Char → List Char} (hf : TakesPlain f)
    (hg : TakesPlain g) : TakesPlain (Filter.thenTake f g) := by
  intro cs
  rw [Filter.thenTake, List.forall_mem_append]
  exact ⟨hf cs, hg _⟩

theorem TakesPlain.marked {p : Char → Bool} {f : List Char → List Char} (hf : TakesPlain f)
    (hp : ∀ c, p c = true → isMark c = false) : TakesPlain (Filter.marked p f) := by
  intro cs
  cases cs with
  | nil => simp [Filter.marked]
  | cons c cs =>
    rw [Filter.marked]
    split_ifs with hc
    · exact List.forall_mem_cons.mpr ⟨hp c hc, hf cs⟩
    · simp

theorem takesPlain_digits : TakesPlain (List.takeWhile isDigit) :=
  fun _ _ hc => isMark_of_isDigit (List.mem_takeWhile_imp hc)

theorem takesPlain_signOf : TakesPlain signOf := by
  intro cs
  unfold signOf
  split <;> simp [show isMark '-' = false by decide, show isMark '+' = false by decide]

/-- A number is made of digits, signs, a dot and the mark of an exponent. -/
theorem numberToken_plain (cs : List Char) : ∀ c ∈ (numberToken cs).1, isMark c = false := by
  have hdot : ∀ c, (c == '.') = true → isMark c = false := by
    intro c hc
    cases beq_iff_eq.mp hc
    decide
  have hmark : ∀ c, (c == 'e' || c == 'E') = true → isMark c = false := by
    intro c hc
    rcases Bool.or_eq_true_iff.mp hc with hc | hc <;> cases beq_iff_eq.mp hc <;> decide
  have hwhole := takesPlain_signOf.thenTake takesPlain_digits
  have hplain := hwhole.thenTake (takesPlain_digits.marked hdot)
  rw [Filter.numberToken_eq]
  exact hplain.thenTake (hwhole.marked hmark) cs

theorem scanNumber_consumes : Consumes scanNumber := by
  intro xs v ys h
  obtain ⟨d, -, -, rfl⟩ := Filter.scanNumber_iff.mp h
  have hprefix : (numberToken xs).1 <+: xs := by
    rw [Filter.numberToken_eq]
    exact (Filter.piece_plainNumber.thenTake Filter.piece_exponent).isPrefix xs
  obtain ⟨rest, hrest⟩ := hprefix
  have hplain := numberToken_plain xs
  generalize (numberToken xs).1 = token at hrest hplain
  subst hrest
  rw [List.drop_left]
  exact leaves_front hplain rest

theorem Consumes.wordOr {word : String} {v : Literal} {scan : Filter.Scan Literal}
    (hw : IsKeyword word) (h : Consumes scan) : Consumes (Filter.wordOr word v scan) := by
  intro xs w ys hread
  rcases Filter.wordOr_iff.mp hread with ⟨hword, -⟩ | ⟨-, hread⟩
  · exact leaves_keyword hw hword
  · exact h hread

theorem scanBare_consumes : Consumes Filter.scanBare := by
  have hdigits : Consumes Filter.scanDigits := by
    intro xs v ys h
    exact scanNumber_consumes (Filter.scanDigits_iff.mp h).2
  exact ((hdigits.wordOr (by decide)).wordOr (by decide)).wordOr (by decide)

theorem scanLiteral_consumes : Consumes scanLiteral := by
  intro xs v ys h
  refine (leaves_skipBlanks xs).trans ?_
  cases Filter.scanLiteral_iff.mp h with
  | quoted hquote hread =>
    obtain ⟨front, hfront, rfl⟩ := scanText_quoted hread
    exact ⟨'"' :: (front ++ ['"']), .quoted hfront, by simp [hquote]⟩
  | bare hquote hread => exact scanBare_consumes hread

theorem scanTest_consumes (a : AttributePath) : Consumes (scanTest a) := by
  intro xs f ys h
  cases Filter.scanTest_iff.mp h with
  | present hword => exact leaves_keyword (by decide) hword
  | compared hword hop hv => exact (scanOperator_consumes hop).trans (scanLiteral_consumes hv)

variable {nested : Filter.Scan Filter}

/-- What is read up to a closing character stands in front of that character. -/
theorem Consumes.enclosed (hn : Consumes nested) {close : Char} {fault : Malformed}
    {xs ys : List Char} {f : Filter} (h : scanEnclosed nested close fault xs = .ok (f, ys)) :
    ∃ front, Balanced front ∧ xs = front ++ close :: ys := by
  obtain ⟨rest, hinner, hskip⟩ := Filter.scanEnclosed_iff.mp h
  exact (hn hinner).trans (leaves_skipped hskip)

theorem Consumes.brackets (hn : Consumes nested) {fault : Malformed} {xs ys : List Char}
    {f : Filter} (h : scanEnclosed nested ']' fault xs = .ok (f, ys)) : Leaves ('[' :: xs) ys := by
  obtain ⟨front, hfront, rfl⟩ := hn.enclosed h
  exact ⟨'[' :: (front ++ [']']), hfront.brackets, by simp⟩

theorem Consumes.parentheses (hn : Consumes nested) {fault : Malformed} {xs ys : List Char}
    {f : Filter} (h : scanEnclosed nested ')' fault xs = .ok (f, ys)) : Leaves ('(' :: xs) ys := by
  obtain ⟨front, hfront, rfl⟩ := hn.enclosed h
  exact ⟨'(' :: (front ++ [')']), hfront.parentheses, by simp⟩

theorem behindSelection_consumes (a : AttributePath) (f : Filter) :
    Consumes (Filter.behindSelection a f) := by
  intro xs g ys h
  cases Filter.behindSelection_iff.mp h with
  | dotted hname htest =>
    exact ((leaves_cons (by decide) _).trans (scanName_consumes hname)).trans
      (scanTest_consumes _ htest)
  | plain hdot =>
    cases hword : keyword? "pr" xs with
    | none => exact .refl xs
    | some tail => exact leaves_keyword (by decide) hword

theorem Consumes.attribute (hn : Consumes nested) : Consumes (scanAttribute nested) := by
  intro xs f ys h
  cases Filter.scanAttribute_iff.mp h with
  | tested hpath hbracket htest => exact (scanPath_consumes hpath).trans (scanTest_consumes _ htest)
  | selected hpath hsub hinner hbehind =>
    exact ((scanPath_consumes hpath).trans (hn.brackets hinner)).trans
      (behindSelection_consumes _ _ hbehind)

theorem Consumes.operand (hn : Consumes nested) : Consumes (scanOperand nested) := by
  intro xs f ys h
  cases Filter.scanOperand_iff.mp h with
  | negated hword hopen hinner =>
    exact ((leaves_keyword (by decide) hword).trans (leaves_skipped hopen)).trans
      (hn.parentheses hinner)
  | grouped hword hopen hinner => exact (leaves_skipped hopen).trans (hn.parentheses hinner)
  | atPath hword hopen hread => exact (leaves_skipBlanks xs).trans (hn.attribute hread)

theorem Consumes.chain {operand : Filter.Scan Filter} (ho : Consumes operand) {word : String}
    (hw : IsKeyword word) (join : Filter → Filter → Filter) (fuel : Nat) (left : Filter) :
    Consumes (scanChain word join operand fuel left) := by
  intro xs f ys h
  refine Filter.scanChain_keeps (p := fun _ rest => Leaves xs rest) ?_ (.refl xs) h
  intro left right cs more rest hword hright hleft
  exact (hleft.trans (leaves_keyword hw hword)).trans (ho hright)

theorem Consumes.joined {operand : Filter.Scan Filter} (ho : Consumes operand) {word : String}
    (hw : IsKeyword word) (join : Filter → Filter → Filter) :
    Consumes (scanJoined word join operand) := by
  intro xs f ys h
  obtain ⟨⟨left, rest⟩, hleft, h⟩ := bind_eq_ok.mp h
  exact (ho hleft).trans (ho.chain hw join _ _ h)

theorem scanWithin_consumes (depth : Nat) : Consumes (scanWithin depth) := by
  induction depth with
  | zero =>
    intro xs f ys h
    cases h
  | succ depth ih => exact (ih.operand.joined (by decide) _).joined (by decide) _

theorem balanced_blanks {cs : List Char} (h : skipBlanks cs = []) : Balanced cs :=
  .ofPlain <| List.all_eq_true.mpr fun c hc => by
    simp [isMark_of_isBlank (skipBlanks_eq_nil.mp h c hc)]

/-- Every text of a filter is balanced. -/
theorem balanced_of_parse {text : String} {f : Filter} (h : Filter.parse text = .ok f) :
    Balanced text.toList := by
  obtain ⟨-, rest, hscan, hblanks⟩ := Filter.parse_eq_ok.mp h
  obtain ⟨front, hfront, htext⟩ := scanWithin_consumes _ hscan
  exact htext ▸ hfront.append (balanced_blanks hblanks)

end Expression

end Roster
