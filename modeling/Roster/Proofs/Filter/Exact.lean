import Roster.Proofs.Filter.Reading

/-!
What the text of a filter can be read as: that filter, or nothing. Reading refuses it where an
attribute is named `not` or the nesting is too deep, wherever in the filter that is.
-/

namespace Roster

namespace Filter

/-- A reader gives nothing. -/
def Fails {α : Type} (x : Except Fault α) : Prop :=
  ∀ a, x ≠ .ok a

theorem fails_error {α : Type} (fault : Fault) : Fails (.error fault : Except Fault α) := by
  rintro a ⟨⟩

theorem Fails.bind {α β : Type} {x : Except Fault α} (h : Fails x) (f : α → Except Fault β) :
    Fails (x >>= f) := by
  intro b hb
  obtain ⟨a, ha, -⟩ := bind_eq_ok.mp hb
  exact h a ha

theorem Fails.map {α β : Type} {x : Except Fault α} (h : Fails x) (f : α → β) :
    Fails (x.map f) := by
  intro b hb
  obtain ⟨a, ha, -⟩ := map_eq_ok.mp hb
  exact h a ha

variable {nested : Scan Filter} {f g : Filter} {rest : List Char}

/-! ### Operands -/

/-- The name `not` is read as the keyword, which asks for a parenthesis. -/
theorem scanOperand_keyword {a : AttributePath} (h : a.WellFormed) (hnot : a.isNot = true)
    (hr : Stops rest) (hparen : ∀ more, skipBlanks rest ≠ '(' :: more) :
    Fails (scanOperand nested (a.toText.toList ++ rest)) := by
  simp only [AttributePath.isNot, Bool.and_eq_true, Option.isNone_iff_eq_none] at hnot
  obtain ⟨⟨hschema, hsub⟩, hname⟩ := hnot
  have htext : a.toText.toList = a.name.toList := by
    rw [toText_localPart hschema, localPart, hsub]
    simp
  have hword : a.name.toList.map Char.toLower = "not".toList := sameName_iff.mp hname
  have hkeyword := keyword?_anyCase h.name hword hr
  rw [htext]
  simp only [scanOperand, hkeyword]
  exact fails_error _

theorem scanEnclosed_fails {close : Char} {fault : Malformed} {cs : List Char}
    (h : Fails (nested cs)) : Fails (scanEnclosed nested close fault cs) :=
  h.bind _

theorem scanOperand_select_fails {a : AttributePath} (h : a.WellFormed) (hnot : a.isNot = false)
    (hf : Fails (nested (f.toText.toList ++ ']' :: rest))) :
    Fails (scanOperand nested ((select a f).toText.toList ++ rest)) := by
  have hstop : Stops ('[' :: (f.toText.toList ++ ']' :: rest)) := stops_cons rfl
  rw [toText_select, scanOperand_path h hnot hstop]
  simp only [scanAttribute, scanPath_toText h hstop, bind, Except.bind]
  split
  · exact fails_error _
  · exact (scanEnclosed_fails hf).bind _

theorem scanOperand_group_fails (hf : Fails (nested (f.toText.toList ++ ')' :: rest))) :
    Fails (scanOperand nested (f.group.toText.toList ++ rest)) := by
  rw [toText_group, scanOperand_parenthesis]
  exact (scanEnclosed_fails hf).map _

theorem scanOperand_not_fails (hf : Fails (nested (f.toText.toList ++ ')' :: rest))) :
    Fails (scanOperand nested (f.not.toText.toList ++ rest)) := by
  rw [toText_not, scanOperand_negation]
  exact (scanEnclosed_fails hf).map _

/-! ### Trees -/

/-- How a filter is refused in each place of the grammar where its tree may stand. -/
structure Refused (nested : Scan Filter) (f : Filter) : Prop where
  operand : f.isOperand = true → ∀ ⦃rest⦄, EndsOperand rest →
    Fails (scanOperand nested (f.toText.toList ++ rest))
  conjunction : f.isOr = false → ∀ ⦃rest⦄, EndsOperand rest →
    Fails (scanJoined "and" .and (scanOperand nested) (f.toText.toList ++ rest))
  disjunction : ∀ ⦃rest⦄, EndsOperand rest → keyword? "and" rest = none →
    Fails (scanFilter nested (f.toText.toList ++ rest))

theorem Refused.ofConjunction (hoperand : f.isOperand = true → ∀ ⦃rest⦄, EndsOperand rest →
      Fails (scanOperand nested (f.toText.toList ++ rest)))
    (h : ∀ ⦃rest⦄, EndsOperand rest →
      Fails (scanJoined "and" .and (scanOperand nested) (f.toText.toList ++ rest))) :
    Refused nested f where
  operand := hoperand
  conjunction := fun _ => h
  disjunction := fun _ hr _ => (h hr).bind _

theorem Refused.ofOperand (h : ∀ ⦃rest⦄, EndsOperand rest →
    Fails (scanOperand nested (f.toText.toList ++ rest))) : Refused nested f :=
  .ofConjunction (fun _ => h) fun _ hr => (h hr).bind _

/-- A chain fails where the operand behind its next keyword does. -/
theorem Reaches.fails {word : String} {join : Filter → Filter → Filter} {operand : Scan Filter}
    {cs more behind : List Char} (h : Reaches word join operand cs f more)
    (hword : keyword? word more = some behind) (hne : more ≠ []) (hg : Fails (operand behind)) :
    Fails (scanJoined word join operand cs) := by
  obtain ⟨fuel, hfuel, hscan⟩ := h
  have hlength : 0 < more.length := List.length_pos_iff.mpr hne
  obtain ⟨fuel, rfl⟩ : ∃ n, fuel = n + 1 := ⟨fuel - 1, by omega⟩
  rw [hscan]
  simp only [scanChain, hword]
  exact hg.bind _

theorem Refused.and_left (hf : Refused nested f) (hor : f.isOr = false) (g : Filter) :
    Refused nested (f.and g) := by
  refine .ofConjunction (fun h => by cases h) fun rest hr => ?_
  rw [toText_and]
  exact hf.conjunction hor (endsOperand_and _)

theorem Refused.and_right (hf : Reads nested f) (hg : Refused nested g) (hor : f.isOr = false)
    (hoperand : g.isOperand = true) : Refused nested (f.and g) := by
  refine .ofConjunction (fun h => by cases h) fun rest hr => ?_
  rw [toText_and]
  refine (hf.conjunction hor (endsOperand_and _)).fails (keyword?_joined (by decide) _) (by simp) ?_
  rw [scanOperand_space]
  exact hg.operand hoperand hr

theorem Refused.or_left (hf : Refused nested f) (g : Filter) : Refused nested (f.or g) where
  operand := fun h => by cases h
  conjunction := fun h => by cases h
  disjunction := by
    intro rest _ _
    rw [toText_or]
    exact hf.disjunction (endsOperand_or _) (keyword?_and_or _)

theorem Refused.or_right (hf : Reads nested f) (hg : Refused nested g) (hor : g.isOr = false) :
    Refused nested (f.or g) where
  operand := fun h => by cases h
  conjunction := fun h => by cases h
  disjunction := by
    intro rest hr _
    rw [toText_or]
    refine (hf.disjunction (endsOperand_or _) (keyword?_and_or _)).fails
      (keyword?_joined (by decide) _) (by simp) ?_
    rw [scanJoined_space scanOperand_space]
    exact hg.conjunction hor hr

/-- A filter within a depth that names no attribute `not`. -/
structure Readable (depth : Nat) (f : Filter) : Prop where
  depth : f.depth ≤ depth
  names : ∀ a ∈ f.paths, a.isNot = false

/-- A filter that is refused with one level less is refused inside brackets and parentheses. -/
theorem closed_fails {depth : Nat} (ih : ∀ d, ¬Readable d f → Refused (scanWithin d) f)
    (h : ∀ d, depth = d + 1 → ¬Readable d f) {c : Char} (hc : c = ')' ∨ c = ']')
    (cs : List Char) : Fails (scanWithin depth (f.toText.toList ++ c :: cs)) := by
  cases depth with
  | zero => exact fails_error _
  | succ depth =>
    exact (ih depth (h depth rfl)).disjunction (endsOperand_closing hc cs)
      (keyword?_closing (by decide) hc cs)

/-- The text of any other filter is refused. -/
theorem refused_scanWithin (h : f.WellFormed) {depth : Nat} (hdeep : ¬Readable depth f) :
    Refused (scanWithin depth) f := by
  -- the depth is general, since what is enclosed is read with one level less
  induction f generalizing depth with
  | compare a op v =>
    have hnot : a.isNot = true := by
      by_contra hname
      exact hdeep ⟨Nat.zero_le _, by simpa [paths] using hname⟩
    refine .ofOperand fun rest hr => ?_
    rw [toText_compare]
    refine scanOperand_keyword h.1 hnot (stops_cons rfl) fun more => ?_
    cases op <;> rintro ⟨⟩
  | present a =>
    have hnot : a.isNot = true := by
      by_contra hname
      exact hdeep ⟨Nat.zero_le _, by simpa [paths] using hname⟩
    refine .ofOperand fun rest hr => ?_
    rw [toText_present]
    refine scanOperand_keyword h hnot (stops_cons rfl) fun more => ?_
    rintro ⟨⟩
  | select a f ih =>
    refine .ofOperand fun rest hr => ?_
    cases hnot : a.isNot with
    | true =>
      rw [toText_select]
      refine scanOperand_keyword h.1 hnot (stops_cons rfl) fun more => ?_
      rintro ⟨⟩
    | false =>
      refine scanOperand_select_fails h.1 hnot (closed_fails (fun d => ih h.2.2) ?_ (.inr rfl) rest)
      rintro d rfl hinner
      exact hdeep ⟨Nat.succ_le_succ hinner.depth, List.forall_mem_cons.mpr ⟨hnot, hinner.names⟩⟩
  | and f g ihf ihg =>
    obtain ⟨hor, hoperand, hf, hg⟩ := h
    by_cases hleft : Readable depth f
    · refine .and_right (reads_scanWithin hf hleft.names hleft.depth) (ihg hg fun hright => ?_)
        hor hoperand
      exact hdeep ⟨Nat.max_le.mpr ⟨hleft.depth, hright.depth⟩,
        List.forall_mem_append.mpr ⟨hleft.names, hright.names⟩⟩
    · exact (ihf hf hleft).and_left hor g
  | or f g ihf ihg =>
    obtain ⟨hor, hf, hg⟩ := h
    by_cases hleft : Readable depth f
    · refine .or_right (reads_scanWithin hf hleft.names hleft.depth) (ihg hg fun hright => ?_) hor
      exact hdeep ⟨Nat.max_le.mpr ⟨hleft.depth, hright.depth⟩,
        List.forall_mem_append.mpr ⟨hleft.names, hright.names⟩⟩
    · exact (ihf hf hleft).or_left g
  | not f ih =>
    refine .ofOperand fun rest _ => scanOperand_not_fails ?_
    refine closed_fails (fun d => ih h) ?_ (.inl rfl) rest
    rintro d rfl hinner
    exact hdeep ⟨Nat.succ_le_succ hinner.depth, hinner.names⟩
  | group f ih =>
    refine .ofOperand fun rest _ => scanOperand_group_fails ?_
    refine closed_fails (fun d => ih h) ?_ (.inl rfl) rest
    rintro d rfl hinner
    exact hdeep ⟨Nat.succ_le_succ hinner.depth, hinner.names⟩

/-! ### Whole texts -/

/-- The text of a filter is read as that filter, within the limits, and as no other. -/
theorem parse_toText (h : f.WellFormed) : parse f.toText = .ok g ↔
    utf8Length f.toText.toList ≤ greatestLength ∧ Readable greatestDepth f ∧ g = f := by
  constructor
  · intro hread
    obtain ⟨hlen, rest, hscan, -⟩ := parse_eq_ok.mp hread
    by_cases hreadable : Readable greatestDepth f
    · have hself := (reads_scanWithin h hreadable.names hreadable.depth).filter endsOperand_nil
        (keyword?_nil (by decide)) (keyword?_nil (by decide))
      rw [List.append_nil] at hself
      cases hself.symm.trans hscan
      exact ⟨hlen, hreadable, rfl⟩
    · have hfails := (refused_scanWithin h hreadable).disjunction endsOperand_nil
        (keyword?_nil (by decide))
      rw [List.append_nil] at hfails
      exact absurd hscan (hfails _)
  · rintro ⟨hlen, hreadable, rfl⟩
    exact h.parse_toText hlen hreadable.depth hreadable.names

end Filter

end Roster
