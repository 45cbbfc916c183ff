import Mathlib.Data.List.DropRight
import Roster.Proofs.Filter.Extent

/-!
How far a filter is read. What is left of its text is an end of it, and the filter is the same when
blanks and a closing character are put behind the text, or when more levels of nesting are allowed.
-/

namespace Roster

namespace Filter

variable {s : List Char}

/-! ### Numbers -/

/-- The front of a text that a rule takes, which is the same with something closing behind it. -/
structure Piece (f : List Char → List Char) : Prop where
  isPrefix (cs : List Char) : f cs <+: cs
  behind (cs : List Char) {s : List Char} : Closes s → f (cs ++ s) = f cs
  visible (cs : List Char) : ∀ c ∈ f cs, isBlank c = false

/-- What one rule takes, and another behind it. -/
def thenTake (f g : List Char → List Char) (cs : List Char) : List Char :=
  f cs ++ g (cs.drop (f cs).length)

theorem Piece.thenTake {f g : List Char → List Char} (hf : Piece f) (hg : Piece g) :
    Piece (thenTake f g) where
  isPrefix cs := by
    obtain ⟨rest, hrest⟩ := hf.isPrefix cs
    obtain ⟨last, hlast⟩ := hg.isPrefix (cs.drop (f cs).length)
    refine ⟨last, ?_⟩
    rw [Filter.thenTake, List.append_assoc, hlast]
    conv_rhs => rw [← hrest]
    rw [← hrest, List.drop_left' (by rw [hrest])]
  behind cs s hs := by
    have hlength := (hf.isPrefix cs).length_le
    rw [Filter.thenTake, hf.behind cs hs, List.drop_append_of_le_length hlength, hg.behind _ hs]
    rfl
  visible cs := by
    intro c hc
    rcases List.mem_append.mp hc with hc | hc
    · exact hf.visible cs c hc
    · exact hg.visible _ c hc

theorem piece_signOf : Piece signOf where
  isPrefix cs := by
    unfold signOf
    split
    · exact ⟨_, rfl⟩
    · exact ⟨_, rfl⟩
    · exact List.nil_prefix
  behind cs s hs := by
    cases cs with
    | nil =>
      cases s with
      | nil => rfl
      | cons d s =>
        have hminus : d ≠ '-' := by
          rintro rfl
          exact hs.head_ne (by decide) (by decide) s rfl
        have hplus : d ≠ '+' := by
          rintro rfl
          exact hs.head_ne (by decide) (by decide) s rfl
        simp [signOf, hminus, hplus]
    | cons c cs =>
      -- the first character alone decides
      rw [List.cons_append]
      unfold signOf
      split <;> simp_all
  visible cs := by
    unfold signOf
    split <;> simp [show isBlank '-' = false by decide, show isBlank '+' = false by decide]

theorem not_isBlank_of_isDigit {c : Char} (h : isDigit c = true) : isBlank c = false := by
  have hname : isNameChar c = true := by simp [isNameChar, h]
  exact not_isBlank_of_isQualifiedChar (isQualifiedChar_of_isNameChar hname)

theorem piece_digits : Piece (List.takeWhile isDigit) where
  isPrefix _ := List.takeWhile_prefix isDigit
  behind cs _ hs := takeWhile_behind hs.stops.not_isDigit cs
  visible cs := by
    intro c hc
    have hall : (cs.takeWhile isDigit).all isDigit = true := List.all_takeWhile
    exact not_isBlank_of_isDigit (List.all_eq_true.mp hall c hc)

/-- A piece behind a character of some kind, or nothing. -/
def marked (p : Char → Bool) (f : List Char → List Char) : List Char → List Char
  | c :: cs => if p c then c :: f cs else []
  | [] => []

theorem Piece.marked {p : Char → Bool} {f : List Char → List Char} (hf : Piece f)
    (hp : ∀ c, p c = true → isBlank c = false ∧ c ≠ ')' ∧ c ≠ ']') : Piece (marked p f) where
  isPrefix cs := by
    cases cs with
    | nil => exact List.nil_prefix
    | cons c cs =>
      rw [Filter.marked]
      split_ifs
      · exact (List.prefix_cons_inj c).mpr (hf.isPrefix cs)
      · exact List.nil_prefix
  behind cs s hs := by
    cases cs with
    | cons c cs => simp [Filter.marked, hf.behind cs hs]
    | nil =>
      cases s with
      | nil => rfl
      | cons d s =>
        have hd : p d = false := by
          rw [Bool.eq_false_iff]
          intro hmark
          obtain ⟨hblank, hc⟩ := hp d hmark
          exact hs.head_ne hblank hc s rfl
        simp [Filter.marked, hd]
  visible cs := by
    cases cs with
    | nil => simp [Filter.marked]
    | cons c cs =>
      intro d hd
      rw [Filter.marked] at hd
      split_ifs at hd with hc
      · rcases List.mem_cons.mp hd with rfl | hd
        · exact (hp d hc).1
        · exact hf.visible cs d hd
      · cases hd

/-- The rules of a number in turn: its front up to the exponent, and the exponent. -/
def plainNumber : List Char → List Char :=
  thenTake (thenTake signOf (List.takeWhile isDigit)) (marked (· == '.') (List.takeWhile isDigit))

def exponent : List Char → List Char :=
  marked (fun c => c == 'e' || c == 'E') (thenTake signOf (List.takeWhile isDigit))

theorem piece_plainNumber : Piece plainNumber := by
  refine (piece_signOf.thenTake piece_digits).thenTake (piece_digits.marked fun c hc => ?_)
  cases beq_iff_eq.mp hc
  decide

theorem piece_exponent : Piece exponent := by
  refine (piece_signOf.thenTake piece_digits).marked fun c hc => ?_
  rcases Bool.or_eq_true_iff.mp hc with hc | hc <;> cases beq_iff_eq.mp hc <;> decide

theorem numberToken_eq (cs : List Char) : numberToken cs =
    (thenTake plainNumber exponent cs,
      !(exponent (cs.drop (plainNumber cs).length)).isEmpty) := by
  have hdrop (xs ys : List Char) :
      cs.drop (xs ++ ys).length = (cs.drop xs.length).drop ys.length := by
    rw [List.length_append, List.drop_drop]
  have hexponent (front ds : List Char) : (match ds with
      | c :: rest =>
        if c == 'e' || c == 'E' then
          (front ++ c :: signOf rest ++ (rest.drop (signOf rest).length).takeWhile isDigit, true)
        else (front, false)
      | [] => (front, false)) = (front ++ exponent ds, !(exponent ds).isEmpty) := by
    cases ds with
    | nil => simp [exponent, marked]
    | cons c ds =>
      by_cases hc : (c == 'e' || c == 'E') = true <;> simp [exponent, marked, thenTake, hc]
  simp only [plainNumber, thenTake, hdrop]
  rw [← hexponent]
  unfold numberToken
  dsimp only
  generalize List.drop (List.takeWhile isDigit (List.drop (signOf cs).length cs)).length
    (List.drop (signOf cs).length cs) = ds
  cases ds with
  | nil => rfl
  | cons c ds =>
    by_cases hc : c = '.'
    · subst hc
      rfl
    · simp [marked, hc]

theorem numberToken_behind (cs : List Char) (hs : Closes s) :
    numberToken (cs ++ s) = numberToken cs := by
  have hpiece := piece_plainNumber.thenTake piece_exponent
  have hlength := (piece_plainNumber.isPrefix cs).length_le
  rw [numberToken_eq, numberToken_eq, hpiece.behind cs hs, piece_plainNumber.behind cs hs,
    List.drop_append_of_le_length hlength, piece_exponent.behind _ hs]

theorem numberToken_length_le (cs : List Char) : (numberToken cs).1.length ≤ cs.length := by
  rw [numberToken_eq]
  exact ((piece_plainNumber.thenTake piece_exponent).isPrefix cs).length_le

theorem scanNumber_carries : Carries scanNumber scanNumber := by
  intro xs v ys h
  obtain ⟨d, hd, rfl, rfl⟩ := scanNumber_iff.mp h
  refine ⟨List.drop_suffix _ xs, fun s hs => scanNumber_iff.mpr ⟨d, ?_, rfl, ?_⟩⟩
  · rw [numberToken_behind xs hs, hd]
  · rw [numberToken_behind xs hs, List.drop_append_of_le_length (numberToken_length_le xs)]

/-! ### Values and tests -/

theorem scanLiteral_nil (v : Literal) (ys : List Char) : scanLiteral [] ≠ .ok (v, ys) := by
  have hnone : ∀ word, IsKeyword word → keyword? word [] = none := fun word hw => keyword?_nil hw
  simp [scanLiteral, skipBlanks, hnone "true" (by decide), hnone "false" (by decide),
    hnone "null" (by decide)]

/-- Leading blanks do not count. -/
theorem scanLiteral_skip (xs : List Char) : scanLiteral (skipBlanks xs) = scanLiteral xs := by
  have hskip : skipBlanks (skipBlanks xs) = skipBlanks xs := List.dropWhile_idempotent ..
  simp only [scanLiteral, hskip]

theorem Carries.wordOr {word : String} {v : Literal} {scan : Scan Literal} (hw : IsKeyword word)
    (h : Carries scan scan) : Carries (wordOr word v scan) (wordOr word v scan) := by
  intro xs w ys hread
  have hword {s : List Char} (hs : Closes s) := keyword?_behind hw hs xs
  rcases wordOr_iff.mp hread with ⟨hk, rfl⟩ | ⟨hk, hread⟩
  · refine ⟨keyword?_suffix hk, fun s hs => wordOr_iff.mpr (.inl ⟨?_, rfl⟩)⟩
    rw [hword hs, hk, Option.map_some]
  · obtain ⟨hsuffix, hcarries⟩ := h hread
    refine ⟨hsuffix, fun s hs => wordOr_iff.mpr (.inr ⟨?_, hcarries hs⟩)⟩
    rw [hword hs, hk, Option.map_none]

theorem scanDigits_carries : Carries scanDigits scanDigits := by
  intro xs v ys h
  obtain ⟨⟨c, hc, hdigit⟩, hread⟩ := scanDigits_iff.mp h
  obtain ⟨hsuffix, hcarries⟩ := scanNumber_carries hread
  exact ⟨hsuffix, fun s hs => scanDigits_iff.mpr
    ⟨⟨c, List.mem_head?_append_of_mem_head? hc, hdigit⟩, hcarries hs⟩⟩

theorem scanBare_carries : Carries scanBare scanBare :=
  ((scanDigits_carries.wordOr (by decide)).wordOr (by decide)).wordOr (by decide)

theorem scanLiteral_carries : Carries scanLiteral scanLiteral := by
  intro xs v ys h
  cases scanLiteral_iff.mp h with
  | quoted hquote hread =>
    obtain ⟨⟨front, rfl⟩, hbehind⟩ := scanText_behind hread
    exact ⟨((List.suffix_cons ..).trans (List.suffix_append front _)).trans (skipped_suffix hquote),
      fun s _ => scanLiteral_iff.mpr (.quoted (skipBlanks_behind hquote s) (hbehind s))⟩
  | bare hquote hread =>
    have hne : skipBlanks xs ≠ [] := by
      intro hnil
      rw [← scanLiteral_skip, hnil] at h
      exact scanLiteral_nil v ys h
    obtain ⟨hsuffix, hcarries⟩ := scanBare_carries hread
    refine ⟨hsuffix.trans (skipBlanks_suffix xs), fun s hs => scanLiteral_iff.mpr (.bare ?_ ?_)⟩
    · rwa [skipBlanks_append hne, List.head?_append_of_ne_nil _ hne]
    · rw [skipBlanks_append hne]
      exact hcarries hs

theorem scanTest_carries (a : AttributePath) : Carries (scanTest a) (scanTest a) := by
  intro xs f ys h
  have hpr {s : List Char} (hs : Closes s) := keyword?_behind (show IsKeyword "pr" by decide) hs xs
  cases scanTest_iff.mp h with
  | present hword =>
    refine ⟨keyword?_suffix hword, fun s hs => scanTest_iff.mpr (.present ?_)⟩
    rw [hpr hs, hword, Option.map_some]
  | compared hword hop hv =>
    obtain ⟨hrest, hop⟩ := scanOperator_carries hop
    obtain ⟨hlast, hv⟩ := scanLiteral_carries hv
    refine ⟨hlast.trans hrest, fun s hs => scanTest_iff.mpr (.compared ?_ (hop hs) (hv hs))⟩
    rw [hpr hs, hword, Option.map_none]

/-! ### Filters -/

variable {nested nested' : Scan Filter}

theorem Carries.enclosed (hn : Carries nested nested') (close : Char) (fault : Malformed) :
    Carries (scanEnclosed nested close fault) (scanEnclosed nested' close fault) := by
  intro xs f ys h
  obtain ⟨more, hinner, hskip⟩ := scanEnclosed_iff.mp h
  obtain ⟨hmore, hinner⟩ := hn hinner
  exact ⟨(skipped_suffix hskip).trans hmore, fun s hs =>
    scanEnclosed_iff.mpr ⟨_, hinner hs, skipBlanks_behind hskip s⟩⟩

theorem behindSelection_carries (a : AttributePath) (f : Filter) :
    Carries (behindSelection a f) (behindSelection a f) := by
  intro xs g ys h
  cases behindSelection_iff.mp h with
  | dotted hname htest =>
    obtain ⟨hafter, hname⟩ := scanName_carries hname
    obtain ⟨hlast, htest⟩ := scanTest_carries _ htest
    exact ⟨(hlast.trans hafter).trans (List.suffix_cons ..), fun s hs =>
      behindSelection_iff.mpr (.dotted (hname hs) (htest hs))⟩
  | plain hdot =>
    constructor
    · cases hkeyword : keyword? "pr" xs with
      | none => exact List.suffix_refl xs
      | some tail => exact keyword?_suffix hkeyword
    · intro s hs
      have hnext := hs.append_ne (by decide) (by decide) hdot
      rw [behindSelection_iff.mpr (.plain hnext),
        keyword?_behind (show IsKeyword "pr" by decide) hs xs]
      cases keyword? "pr" xs <;> rfl

theorem Carries.attribute (hn : Carries nested nested') :
    Carries (scanAttribute nested) (scanAttribute nested') := by
  intro xs f ys h
  cases scanAttribute_iff.mp h with
  | selected hpath hsub hinner hbehind =>
    obtain ⟨hrest, hpath⟩ := scanPath_carries hpath
    obtain ⟨hmore, hinner⟩ := hn.enclosed _ _ hinner
    obtain ⟨hlast, hbehind⟩ := behindSelection_carries _ _ hbehind
    exact ⟨((hlast.trans hmore).trans (List.suffix_cons ..)).trans hrest, fun s hs =>
      scanAttribute_iff.mpr (.selected (hpath hs) hsub (hinner hs) (hbehind hs))⟩
  | tested hpath hbracket htest =>
    obtain ⟨hrest, hpath⟩ := scanPath_carries hpath
    obtain ⟨hlast, htest⟩ := scanTest_carries _ htest
    exact ⟨hlast.trans hrest, fun s hs => scanAttribute_iff.mpr
      (.tested (hpath hs) (hs.append_ne (by decide) (by decide) hbracket) (htest hs))⟩

theorem Carries.operand (hn : Carries nested nested') :
    Carries (scanOperand nested) (scanOperand nested') := by
  intro xs f ys h
  have hnot {s : List Char} (hs : Closes s) :=
    keyword?_behind (show IsKeyword "not" by decide) hs xs
  cases scanOperand_iff.mp h with
  | negated hword hopen hinner =>
    obtain ⟨hlast, hinner⟩ := hn.enclosed _ _ hinner
    refine ⟨(hlast.trans (skipped_suffix hopen)).trans (keyword?_suffix hword), fun s hs =>
      scanOperand_iff.mpr (.negated ?_ (skipBlanks_behind hopen s) (hinner hs))⟩
    rw [hnot hs, hword, Option.map_some]
  | grouped hword hopen hinner =>
    obtain ⟨hlast, hinner⟩ := hn.enclosed _ _ hinner
    refine ⟨hlast.trans (skipped_suffix hopen), fun s hs =>
      scanOperand_iff.mpr (.grouped ?_ (skipBlanks_behind hopen s) (hinner hs))⟩
    rw [hnot hs, hword, Option.map_none]
  | atPath hword hopen hread =>
    obtain ⟨hsuffix, hcarries⟩ := hn.attribute hread
    refine ⟨hsuffix.trans (skipBlanks_suffix xs), fun s hs => ?_⟩
    cases hskip : skipBlanks xs with
    | nil =>
      rw [hskip] at hread
      cases hread
    | cons c cs =>
      have hread' := hcarries hs
      rw [hskip, List.cons_append, ← skipBlanks_behind hskip] at hread'
      refine scanOperand_iff.mpr (.atPath ?_ (fun opened hopened => ?_) hread')
      · rw [hnot hs, hword, Option.map_none]
      · rw [skipBlanks_behind hskip] at hopened
        cases hopened
        exact hopen cs hskip

section Chains

variable {word : String} {join : Filter → Filter → Filter} {operand operand' : Scan Filter}

/-- Fuel for every character is enough, so more of it changes nothing. -/
theorem Carries.chain (hw : IsKeyword word) (ho : Carries operand operand') (fuel' : Nat)
    {fuel : Nat} {left f : Filter} {xs ys : List Char} (hfuel : xs.length ≤ fuel)
    (h : scanChain word join operand fuel left xs = .ok (f, ys)) :
    ys <:+ xs ∧ ∀ ⦃s⦄, Closes s → (xs ++ s).length ≤ fuel' →
      scanChain word join operand' fuel' left (xs ++ s) = .ok (f, ys ++ s) := by
  -- each round takes a keyword off the text, so that the fuel of both chains still covers it
  induction fuel generalizing left xs fuel' with
  | zero =>
    cases h
    obtain rfl : ys = [] := List.length_eq_zero_iff.mp (Nat.le_zero.mp hfuel)
    refine ⟨List.suffix_refl _, fun s hs _ => ?_⟩
    have hnone : keyword? word ([] ++ s) = none := by
      rw [keyword?_behind hw hs, keyword?_nil hw]
      rfl
    cases fuel' <;> simp only [scanChain, hnone]
  | succ fuel ih =>
    have hkeyword {s : List Char} (hs : Closes s) := keyword?_behind hw hs xs
    simp only [scanChain] at h
    split at h
    case h_2 hnone =>
      cases h
      refine ⟨List.suffix_refl _, fun s hs _ => ?_⟩
      cases fuel' <;> simp only [scanChain, hkeyword hs, hnone, Option.map_none]
    case h_1 rest hsome =>
      obtain ⟨⟨right, more⟩, hright, h⟩ := bind_eq_ok.mp h
      obtain ⟨hmore, hright⟩ := ho hright
      have hshorter := keyword?_shorter hw hsome
      have hlength := hmore.length_le
      have hleft : more.length ≤ fuel := by omega
      constructor
      · exact ((ih 0 hleft h).1.trans hmore).trans (keyword?_suffix hsome)
      · intro s hs hcover
        rw [List.length_append] at hcover
        obtain ⟨fuel', rfl⟩ : ∃ n, fuel' = n + 1 := ⟨fuel' - 1, by omega⟩
        simp only [scanChain, hkeyword hs, hsome, Option.map_some, hright hs, bind, Except.bind]
        apply (ih fuel' hleft h).2 hs
        rw [List.length_append]
        omega

theorem Carries.joined (hw : IsKeyword word) (ho : Carries operand operand') :
    Carries (scanJoined word join operand) (scanJoined word join operand') := by
  intro xs f ys h
  obtain ⟨⟨left, rest⟩, hleft, h⟩ := bind_eq_ok.mp h
  obtain ⟨hrest, hleft⟩ := ho hleft
  have hchain (n : Nat) := ho.chain hw n (Nat.le_refl _) h
  refine ⟨(hchain 0).1.trans hrest, fun s hs => ?_⟩
  simp only [scanJoined, hleft hs, bind, Except.bind]
  exact (hchain _).2 hs (Nat.le_refl _)

end Chains

theorem Carries.filter (hn : Carries nested nested') :
    Carries (scanFilter nested) (scanFilter nested') :=
  (hn.operand.joined (by decide)).joined (by decide)

/-- A filter that is read is also read with more levels allowed and something closing behind it. -/
theorem scanWithin_carries {depth depth' : Nat} (h : depth ≤ depth') :
    Carries (scanWithin depth) (scanWithin depth') := by
  induction depth generalizing depth' with
  | zero =>
    intro xs f ys hread
    cases hread
  | succ depth ih =>
    obtain ⟨depth', rfl⟩ : ∃ n, depth' = n + 1 := ⟨depth' - 1, by omega⟩
    exact (ih (by omega)).filter

end Filter

end Roster
