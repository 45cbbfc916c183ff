import Roster.Proofs.Filter.Tokens

/-!
A filter is read back from its text. Chains are read along their left spine: each join hands the
reader on to the next keyword, and what is left of its fuel still covers the rest of the text.
-/

namespace Roster

namespace Filter

/-! ### Texts -/

theorem toText_compare (a : AttributePath) (op : CompareOp) (v : Literal) (rest : List Char) :
    (compare a op v).toText.toList ++ rest =
      a.toText.toList ++ ' ' :: (op.word.toList ++ ' ' :: (v.toText.toList ++ rest)) := by
  simp [toText]

theorem toText_present (a : AttributePath) (rest : List Char) :
    (present a).toText.toList ++ rest = a.toText.toList ++ ' ' :: ("pr".toList ++ rest) := by
  simp [toText]

theorem toText_select (a : AttributePath) (f : Filter) (rest : List Char) :
    (select a f).toText.toList ++ rest =
      a.toText.toList ++ '[' :: (f.toText.toList ++ ']' :: rest) := by
  simp [toText]

theorem toText_not (f : Filter) (rest : List Char) :
    f.not.toText.toList ++ rest =
      "not".toList ++ ' ' :: '(' :: (f.toText.toList ++ ')' :: rest) := by
  simp [toText]

theorem toText_group (f : Filter) (rest : List Char) :
    f.group.toText.toList ++ rest = '(' :: (f.toText.toList ++ ')' :: rest) := by
  simp [toText]

theorem toText_and (f g : Filter) (rest : List Char) :
    (f.and g).toText.toList ++ rest =
      f.toText.toList ++ ' ' :: ("and".toList ++ ' ' :: (g.toText.toList ++ rest)) := by
  simp [toText]

theorem toText_or (f g : Filter) (rest : List Char) :
    (f.or g).toText.toList ++ rest =
      f.toText.toList ++ ' ' :: ("or".toList ++ ' ' :: (g.toText.toList ++ rest)) := by
  simp [toText]

/-! ### Operands -/

/-- What may follow an operand: the end, a blank, or a closing character, and not `pr`. -/
structure EndsOperand (rest : List Char) : Prop where
  ends : Ends rest
  notPresent : keyword? "pr" rest = none

theorem endsOperand_nil : EndsOperand [] :=
  ⟨by simp [Ends], keyword?_nil (by decide)⟩

variable {nested : Scan Filter} {rest : List Char}

theorem scanOperand_space (cs : List Char) :
    scanOperand nested (' ' :: cs) = scanOperand nested cs := by
  simp only [scanOperand, keyword?_space, skipBlanks_space]

/-- An operand that begins with a path is read by what follows the path. -/
theorem scanOperand_path {a : AttributePath} (h : a.WellFormed) (hnot : a.isNot = false)
    (hr : Stops rest) :
    scanOperand nested (a.toText.toList ++ rest) =
      scanAttribute nested (a.toText.toList ++ rest) := by
  have hskip := skipBlanks_qualified (toText_qualifiedChars h) (toText_ne_nil h) rest
  simp only [scanOperand, keyword?_not_toText h hnot hr, hskip]
  have hchars := toText_qualifiedChars h
  cases htext : a.toText.toList with
  | nil => exact absurd htext (toText_ne_nil h)
  | cons c cs =>
    rw [htext, List.all_cons, Bool.and_eq_true] at hchars
    have hparen : c ≠ '(' := by
      rintro rfl
      exact absurd hchars.1 (by decide)
    simp [hparen]

theorem scanOperand_test {a : AttributePath} (h : a.WellFormed) (hnot : a.isNot = false)
    (cs : List Char) :
    scanOperand nested (a.toText.toList ++ ' ' :: cs) = scanTest a (' ' :: cs) := by
  have hstop : Stops (' ' :: cs) := stops_cons rfl
  rw [scanOperand_path h hnot hstop]
  simp [scanAttribute, scanPath_toText h hstop, bind, Except.bind]

theorem scanEnclosed_append {f : Filter} {close : Char} {fault : Malformed} {cs : List Char}
    (hc : isBlank close = false) (hn : nested (cs ++ close :: rest) = .ok (f, close :: rest)) :
    scanEnclosed nested close fault (cs ++ close :: rest) = .ok (f, rest) := by
  exact scanEnclosed_iff.mpr ⟨_, hn, skipBlanks_cons rest hc⟩

theorem scanOperand_select {a : AttributePath} {f : Filter} (h : a.WellFormed)
    (hnot : a.isNot = false) (hsub : a.sub = none)
    (hn : nested (f.toText.toList ++ ']' :: rest) = .ok (f, ']' :: rest)) (hr : EndsOperand rest) :
    scanOperand nested ((select a f).toText.toList ++ rest) = .ok (select a f, rest) := by
  have hstop : Stops ('[' :: (f.toText.toList ++ ']' :: rest)) := stops_cons rfl
  have hinner : scanEnclosed nested ']' .unclosedSelection (f.toText.toList ++ ']' :: rest) =
      .ok (f, rest) := scanEnclosed_append (by decide) hn
  rw [toText_select, scanOperand_path h hnot hstop]
  refine scanAttribute_iff.mpr (.selected (scanPath_toText h hstop) hsub hinner ?_)
  have hdot : ∀ more, rest ≠ '.' :: more := by
    rintro more rfl
    exact absurd (hr.ends '.' rfl) (by decide)
  rw [behindSelection_iff.mpr (.plain hdot), hr.notPresent, Option.getD_none]

/-- A group is read at a parenthesis. -/
theorem scanOperand_parenthesis (cs : List Char) :
    scanOperand nested ('(' :: cs) =
      (scanEnclosed nested ')' .unclosedGroup cs).map fun r => (.group r.1, r.2) := by
  have hnot : keyword? "not" ('(' :: cs) = none :=
    keyword?_other (by decide) (by decide) (by decide)
  simp only [scanOperand, hnot, skipBlanks_cons cs (show isBlank '(' = false by decide)]

/-- A negation is read at a parenthesis behind its keyword. -/
theorem scanOperand_negation (cs : List Char) :
    scanOperand nested ("not".toList ++ ' ' :: '(' :: cs) =
      (scanEnclosed nested ')' .unclosedNot cs).map fun r => (.not r.1, r.2) := by
  have hstop : Stops (' ' :: '(' :: cs) := stops_cons rfl
  simp only [scanOperand, keyword?_word (show IsKeyword "not" by decide) hstop, skipBlanks_space,
    skipBlanks_cons cs (show isBlank '(' = false by decide)]

theorem scanOperand_group {f : Filter}
    (hn : nested (f.toText.toList ++ ')' :: rest) = .ok (f, ')' :: rest)) :
    scanOperand nested (f.group.toText.toList ++ rest) = .ok (f.group, rest) := by
  rw [toText_group, scanOperand_parenthesis, scanEnclosed_append (by decide) hn]
  rfl

theorem scanOperand_not {f : Filter}
    (hn : nested (f.toText.toList ++ ')' :: rest) = .ok (f, ')' :: rest)) :
    scanOperand nested (f.not.toText.toList ++ rest) = .ok (f.not, rest) := by
  rw [toText_not, scanOperand_negation, scanEnclosed_append (by decide) hn]
  rfl

/-! ### Chains -/

section Chains

variable {word : String} {join : Filter → Filter → Filter} {operand : Scan Filter}
  {f g : Filter} {cs : List Char}

/-- The chain has been read up to `f`, with fuel for what is left. -/
def Reaches (word : String) (join : Filter → Filter → Filter) (operand : Scan Filter)
    (cs : List Char) (f : Filter) (rest : List Char) : Prop :=
  ∃ fuel, rest.length ≤ fuel ∧
    scanJoined word join operand cs = scanChain word join operand fuel f rest

theorem Reaches.first (h : operand cs = .ok (f, rest)) :
    Reaches word join operand cs f rest :=
  ⟨rest.length, Nat.le_refl _, by simp [scanJoined, h, bind, Except.bind]⟩

theorem Reaches.next {more behind : List Char} (h : Reaches word join operand cs f more)
    (hword : keyword? word more = some behind) (hg : operand behind = .ok (g, rest))
    (hlt : rest.length < more.length) : Reaches word join operand cs (join f g) rest := by
  obtain ⟨fuel, hfuel, hscan⟩ := h
  obtain ⟨fuel, rfl⟩ : ∃ n, fuel = n + 1 := ⟨fuel - 1, by omega⟩
  refine ⟨fuel, by omega, ?_⟩
  simp [hscan, scanChain, hword, hg, bind, Except.bind]

theorem Reaches.last (h : Reaches word join operand cs f rest)
    (hword : keyword? word rest = none) : scanJoined word join operand cs = .ok (f, rest) := by
  obtain ⟨fuel, -, hscan⟩ := h
  rw [hscan]
  cases fuel <;> simp [scanChain, hword]

theorem scanJoined_space (h : ∀ cs, operand (' ' :: cs) = operand cs) (cs : List Char) :
    scanJoined word join operand (' ' :: cs) = scanJoined word join operand cs := by
  simp only [scanJoined, h]

end Chains

/-! ### Trees -/

theorem endsOperand_and (cs : List Char) : EndsOperand (' ' :: ("and".toList ++ cs)) :=
  ⟨by simp [Ends], (keyword?_space _ _).trans (keyword?_other (by decide) (by decide) (by decide))⟩

theorem endsOperand_or (cs : List Char) : EndsOperand (' ' :: ("or".toList ++ cs)) :=
  ⟨by simp [Ends], (keyword?_space _ _).trans (keyword?_other (by decide) (by decide) (by decide))⟩

theorem keyword?_and_or (cs : List Char) : keyword? "and" (' ' :: ("or".toList ++ cs)) = none :=
  (keyword?_space _ _).trans (keyword?_other (by decide) (by decide) (by decide))

theorem keyword?_joined {word : String} (hw : IsKeyword word) (cs : List Char) :
    keyword? word (' ' :: (word.toList ++ ' ' :: cs)) = some (' ' :: cs) :=
  (keyword?_space _ _).trans (keyword?_word hw (stops_cons rfl))

/-- How a filter is read in each place of the grammar where its tree may stand. -/
structure Reads (nested : Scan Filter) (f : Filter) : Prop where
  operand : f.isOperand = true → ∀ ⦃rest⦄, EndsOperand rest →
    scanOperand nested (f.toText.toList ++ rest) = .ok (f, rest)
  conjunction : f.isOr = false → ∀ ⦃rest⦄, EndsOperand rest →
    Reaches "and" .and (scanOperand nested) (f.toText.toList ++ rest) f rest
  disjunction : ∀ ⦃rest⦄, EndsOperand rest → keyword? "and" rest = none →
    Reaches "or" .or (scanJoined "and" .and (scanOperand nested)) (f.toText.toList ++ rest) f rest

theorem Reads.ofConjunction {f : Filter} (hoperand : f.isOperand = true →
      ∀ ⦃rest⦄, EndsOperand rest → scanOperand nested (f.toText.toList ++ rest) = .ok (f, rest))
    (h : ∀ ⦃rest⦄, EndsOperand rest →
      Reaches "and" .and (scanOperand nested) (f.toText.toList ++ rest) f rest) :
    Reads nested f where
  operand := hoperand
  conjunction := fun _ => h
  disjunction := fun _ hr hand => .first ((h hr).last hand)

theorem Reads.ofOperand {f : Filter} (h : ∀ ⦃rest⦄, EndsOperand rest →
    scanOperand nested (f.toText.toList ++ rest) = .ok (f, rest)) : Reads nested f :=
  .ofConjunction (fun _ => h) fun _ hr => .first (h hr)

theorem Reads.and {f g : Filter} (hf : Reads nested f) (hg : Reads nested g)
    (hor : f.isOr = false) (hoperand : g.isOperand = true) : Reads nested (f.and g) := by
  refine .ofConjunction (fun h => by cases h) fun rest hr => ?_
  rw [toText_and]
  -- the chain that read `f` goes on with one more operand, for which its fuel is enough
  refine (hf.conjunction hor (endsOperand_and _)).next (keyword?_joined (by decide) _) ?_ ?_
  · rw [scanOperand_space]
    exact hg.operand hoperand hr
  · simp only [List.length_cons, List.length_append]
    omega

theorem Reads.or {f g : Filter} (hf : Reads nested f) (hg : Reads nested g)
    (hor : g.isOr = false) : Reads nested (f.or g) where
  operand := fun h => by cases h
  conjunction := fun h => by cases h
  disjunction := by
    intro rest hr hand
    rw [toText_or]
    -- no `and` follows the right side, so its own chain ends there
    refine (hf.disjunction (endsOperand_or _) (keyword?_and_or _)).next
      (keyword?_joined (by decide) _) ?_ ?_
    · rw [scanJoined_space scanOperand_space]
      exact (hg.conjunction hor hr).last hand
    · simp only [List.length_cons, List.length_append]
      omega

/-- A filter ends where a closing character or the end of the text follows. -/
theorem Reads.filter {f : Filter} (h : Reads nested f) (hr : EndsOperand rest)
    (hand : keyword? "and" rest = none) (hor : keyword? "or" rest = none) :
    scanFilter nested (f.toText.toList ++ rest) = .ok (f, rest) :=
  (h.disjunction hr hand).last hor

theorem keyword?_closing {word : String} (hw : IsKeyword word) {c : Char}
    (hc : c = ')' ∨ c = ']') (cs : List Char) : keyword? word (c :: cs) = none := by
  have hletter : isBlank c = false ∧ isLetter c.toLower = false := by
    rcases hc with rfl | rfl <;> decide
  refine keyword?_other hw hletter.1 fun hhead => ?_
  have hword := (hw.2 _ (List.mem_of_mem_head? hhead)).1
  rw [hletter.2] at hword
  cases hword

theorem endsOperand_closing {c : Char} (hc : c = ')' ∨ c = ']') (cs : List Char) :
    EndsOperand (c :: cs) :=
  ⟨by rintro d ⟨⟩; exact .inr hc, keyword?_closing (by decide) hc cs⟩

/-- A filter is read up to the character that closes the brackets or parentheses around it. -/
theorem Reads.closed {f : Filter} {depth : Nat} (h : Reads (scanWithin depth) f) {c : Char}
    (hc : c = ')' ∨ c = ']') (cs : List Char) :
    scanWithin (depth + 1) (f.toText.toList ++ c :: cs) = .ok (f, c :: cs) :=
  h.filter (endsOperand_closing hc cs) (keyword?_closing (by decide) hc cs)
    (keyword?_closing (by decide) hc cs)

theorem reads_scanWithin {f : Filter} (h : f.WellFormed) (hnot : ∀ a ∈ f.paths, a.isNot = false)
    {depth : Nat} (hd : f.depth ≤ depth) : Reads (scanWithin depth) f := by
  -- the depth is general, since what is enclosed is read with one level less
  induction f generalizing depth with
  | compare a op v =>
    refine .ofOperand fun rest hr => ?_
    rw [toText_compare, scanOperand_test h.1 (hnot a (by simp [paths]))]
    exact scanTest_compare h.2 hr.ends
  | present a =>
    refine .ofOperand fun rest hr => ?_
    rw [toText_present, scanOperand_test h (hnot a (by simp [paths]))]
    exact scanTest_present hr.ends.stops
  | select a f ih =>
    obtain ⟨inner, rfl⟩ := Nat.exists_eq_add_one_of_ne_zero (Nat.ne_of_gt (Nat.zero_lt_of_lt hd))
    have hf := ih h.2.2 (fun b hb => hnot b (List.mem_cons_of_mem a hb)) (Nat.le_of_succ_le_succ hd)
    refine .ofOperand fun rest hr => ?_
    exact scanOperand_select h.1 (hnot a List.mem_cons_self) h.2.1 (hf.closed (.inr rfl) rest) hr
  | and f g ihf ihg =>
    simp only [Filter.depth, Nat.max_le] at hd
    simp only [paths, List.mem_append] at hnot
    exact .and (ihf h.2.2.1 (fun a ha => hnot a (.inl ha)) hd.1)
      (ihg h.2.2.2 (fun a ha => hnot a (.inr ha)) hd.2) h.1 h.2.1
  | or f g ihf ihg =>
    simp only [Filter.depth, Nat.max_le] at hd
    simp only [paths, List.mem_append] at hnot
    exact .or (ihf h.2.1 (fun a ha => hnot a (.inl ha)) hd.1)
      (ihg h.2.2 (fun a ha => hnot a (.inr ha)) hd.2) h.1
  | not f ih =>
    obtain ⟨inner, rfl⟩ := Nat.exists_eq_add_one_of_ne_zero (Nat.ne_of_gt (Nat.zero_lt_of_lt hd))
    have hf := ih h hnot (Nat.le_of_succ_le_succ hd)
    exact .ofOperand fun rest _ => scanOperand_not (hf.closed (.inl rfl) rest)
  | group f ih =>
    obtain ⟨inner, rfl⟩ := Nat.exists_eq_add_one_of_ne_zero (Nat.ne_of_gt (Nat.zero_lt_of_lt hd))
    have hf := ih h hnot (Nat.le_of_succ_le_succ hd)
    exact .ofOperand fun rest _ => scanOperand_group (hf.closed (.inl rfl) rest)

/-- The text of a well-formed filter within the limits is read as that filter. -/
theorem WellFormed.parse_toText {f : Filter} (h : f.WellFormed)
    (hlen : utf8Length f.toText.toList ≤ greatestLength) (hdepth : f.depth ≤ greatestDepth)
    (hnot : ∀ a ∈ f.paths, a.isNot = false) : parse f.toText = .ok f := by
  have hscan : scanWithin (greatestDepth + 1) f.toText.toList = .ok (f, []) := by
    have hread := (reads_scanWithin h hnot hdepth).filter endsOperand_nil
      (keyword?_nil (by decide)) (keyword?_nil (by decide))
    rwa [List.append_nil] at hread
  have hall : scanAll f.toText.toList = .ok f := by
    simp [scanAll, hscan, bind, Except.bind, skipBlanks]
  simp only [parse, if_neg (Nat.not_lt.mpr hlen), hall]

/-- A filter that was read, and its bracket form, are read back from their texts. -/
theorem parse_reparse {text : String} {f g : Filter} (hread : parse text = .ok f)
    (hg : g = f ∨ g = f.bracketed) (hlen : utf8Length g.toText.toList ≤ greatestLength)
    (hdepth : g.depth ≤ greatestDepth) (hnot : ∀ a ∈ g.paths, a.isNot = false) :
    parse g.toText = .ok g := by
  have hf := parse_wellFormed hread
  have hwell : g.WellFormed := by
    rcases hg with rfl | rfl
    · exact hf
    · exact hf.bracketed
  exact hwell.parse_toText hlen hdepth hnot

/-- A dotted comparison joined to a negation is read back in its bracket form. -/
theorem parse_reparse_emails :
    let f := Filter.and
      (.select (.ofName "emails") (.compare (.ofName "type") .eq (.text "wo\"rk")))
      (.not (.compare (.ofName "age") .ge (.number ⟨true, 150, 2⟩)))
    parse f.toText = .ok f :=
  have hread : parse "emails.type eq \"wo\\\"rk\" and not (age GE -1.50)" =
      .ok (.and (.compare ⟨none, "emails", some "type"⟩ .eq (.text "wo\"rk"))
        (.not (.compare (.ofName "age") .ge (.number ⟨true, 150, 2⟩)))) := by decide +kernel
  parse_reparse hread (.inr (by decide)) (by decide +kernel) (by decide) (by decide)

end Filter

end Roster
