import Roster.Proofs.Filter.Comparison
import Roster.Proofs.Filter.Enclosed

/-!
The text that a reader takes off the front of another one, read alone. A reader that stops in front
of blanks or of a closing character reads the same from the text without them, and with fewer
levels of nesting where the filter needs no more.
-/

namespace Roster

namespace Filter

variable {s : List Char}

/-- What is read of a text with something closing behind it is read of the text alone, as far as it
fits. -/
def Detaches {α : Type} (scan scan' : Scan α) (fits : α → Prop) : Prop :=
  ∀ ⦃xs s x ys⦄, Closes s → scan (xs ++ s) = .ok (x, ys ++ s) → fits x → scan' xs = .ok (x, ys)

/-- That the text alone is read at all is enough: what is read carries over. -/
theorem Carries.detaches {α : Type} {scan scan' : Scan α} {fits : α → Prop}
    (hc : Carries scan' scan)
    (h : ∀ ⦃xs s x ys⦄, Closes s → scan (xs ++ s) = .ok (x, ys ++ s) → fits x →
      ∃ r, scan' xs = .ok r) : Detaches scan scan' fits := by
  intro xs s x ys hs hscan hfits
  obtain ⟨⟨x', zs⟩, hread⟩ := h hs hscan hfits
  have hbehind := (hc hread).2 hs
  rw [hscan] at hbehind
  simp only [Except.ok.injEq, Prod.mk.injEq, List.append_cancel_right_eq] at hbehind
  obtain ⟨rfl, rfl⟩ := hbehind
  exact hread

/-- A character in front of the closing text is found in the text alone. -/
theorem skipBlanks_detaches {xs more : List Char} {c : Char}
    (h : skipBlanks (xs ++ s) = c :: (more ++ s)) : skipBlanks xs = c :: more := by
  cases hskip : skipBlanks xs with
  | nil =>
    rw [skipBlanks_blanks hskip] at h
    have hlength := (skipBlanks_suffix s).length_le
    rw [h, List.length_cons, List.length_append] at hlength
    omega
  | cons d rest =>
    rw [skipBlanks_behind hskip] at h
    simpa using h

theorem keyword?_detaches (hs : Closes s) {word : String} (hw : IsKeyword word)
    {xs more : List Char} (h : keyword? word (xs ++ s) = some (more ++ s)) :
    keyword? word xs = some more := by
  rw [keyword?_behind hw hs] at h
  obtain ⟨rest, hrest, hbehind⟩ := Option.map_eq_some_iff.mp h
  rwa [List.append_cancel_right hbehind] at hrest

theorem keyword?_detaches_none (hs : Closes s) {word : String} (hw : IsKeyword word)
    {xs : List Char} (h : keyword? word (xs ++ s) = none) : keyword? word xs = none := by
  rw [keyword?_behind hw hs] at h
  exact Option.map_eq_none_iff.mp h

/-- Where the closing text is left over at the end, it stood behind all that was left before. -/
theorem rest_behind {ys rest : List Char} (h : ys ++ s <:+ rest) : ∃ more, rest = more ++ s := by
  obtain ⟨more, hmore⟩ := (List.suffix_append ys s).trans h
  exact ⟨more, hmore.symm⟩

/-! ### Tokens -/

/-- No token begins with a character that closes. -/
theorem closes_fails {cs : List Char} (h : Closes cs) :
    Fails (scanName cs) ∧ Fails (scanPath cs) ∧ Fails (scanOperator cs) ∧
      Fails (scanLiteral cs) := by
  rw [← scanLiteral_skip]
  simp only [scanName, scanPath, scanOperator]
  cases hskip : skipBlanks cs with
  | nil => exact ⟨fails_error _, fails_error _, fails_error _, fails_error _⟩
  | cons c rest =>
    rcases h c (by simp [hskip]) with rfl | rfl <;>
      exact ⟨fails_error _, fails_error _, fails_error _, fails_error _⟩

theorem scanName_detaches : Detaches scanName scanName fun _ => True := by
  refine scanName_carries.detaches fun xs s name ys hs h _ => ?_
  cases hskip : skipBlanks xs with
  | nil => exact absurd h ((closes_fails (closes_blanks hskip hs)).1 _)
  | cons c cs =>
    obtain ⟨d, more, hbehind, hstart, -⟩ := scanName_iff.mp h
    cases (skipBlanks_behind hskip s).symm.trans hbehind
    exact ⟨_, scanName_iff.mpr ⟨c, cs, hskip, hstart, rfl, rfl⟩⟩

theorem scanQualified_detaches : Detaches scanQualified scanQualified fun _ => True := by
  refine scanQualified_carries.detaches fun xs s a ys hs h _ => ?_
  obtain ⟨hpath, -⟩ := scanQualified_iff.mp h
  rw [takeWhile_behind hs.stops] at hpath
  exact ⟨_, scanQualified_iff.mpr ⟨hpath, rfl⟩⟩

theorem scanPath_detaches : Detaches scanPath scanPath fun _ => True := by
  refine scanPath_carries.detaches fun xs s a ys hs h _ => ?_
  cases hskip : skipBlanks xs with
  | nil => exact absurd h ((closes_fails (closes_blanks hskip hs)).2.1 _)
  | cons c cs =>
    have hne : skipBlanks xs ≠ [] := by simp [hskip]
    have hurn : beginsWith "urn:".toList (skipBlanks (xs ++ s)) =
        beginsWith "urn:".toList (skipBlanks xs) := by
      rw [skipBlanks_append hne, beginsWith_behind (by decide) hs]
    cases scanPath_iff.mp h with
    | qualified hbegins hread =>
      rw [skipBlanks_append hne] at hread
      exact ⟨_, scanPath_iff.mpr
        (.qualified (hurn ▸ hbegins) (scanQualified_detaches hs hread trivial))⟩
    | dotted hbegins hname hsub =>
      obtain ⟨more, rfl⟩ := rest_behind (scanName_carries hsub).1
      rw [skipBlanks_append hne] at hname
      rw [← List.cons_append] at hname
      exact ⟨_, scanPath_iff.mpr (.dotted (hurn ▸ hbegins) (scanName_detaches hs hname trivial)
        (scanName_detaches hs hsub trivial))⟩
    | named hbegins hname hdot =>
      rw [skipBlanks_append hne] at hname
      refine ⟨_, scanPath_iff.mpr
        (.named (hurn ▸ hbegins) (scanName_detaches hs hname trivial) fun more hmore => ?_)⟩
      exact hdot (more ++ s) (congrArg (· ++ s) hmore)

theorem scanOperator_detaches : Detaches scanOperator scanOperator fun _ => True := by
  refine scanOperator_carries.detaches fun xs s op ys hs h _ => ?_
  cases hskip : skipBlanks xs with
  | nil => exact absurd h ((closes_fails (closes_blanks hskip hs)).2.2.1 _)
  | cons c cs =>
    obtain ⟨hop, -⟩ := scanOperator_iff.mp h
    rw [skipBlanks_append (by simp [hskip]), takeWhile_behind hs.stops.not_isLetter] at hop
    exact ⟨_, scanOperator_iff.mpr ⟨hop, rfl⟩⟩

theorem scanText_detaches {xs t ys : List Char} (h : scanText (xs ++ s) = .ok (t, ys ++ s)) :
    scanText xs = .ok (t, ys) := by
  obtain ⟨front, htext, hread⟩ := scanText_split h
  have hbehind : xs ++ s = front ++ '"' :: ys ++ s := by simpa using htext
  obtain rfl := List.append_cancel_right hbehind
  exact hread ys

theorem scanNumber_detaches : Detaches scanNumber scanNumber fun _ => True := by
  refine scanNumber_carries.detaches fun xs s v ys hs h _ => ?_
  obtain ⟨d, hd, -, -⟩ := scanNumber_iff.mp h
  rw [numberToken_behind xs hs] at hd
  exact ⟨_, scanNumber_iff.mpr ⟨d, hd, rfl, rfl⟩⟩

theorem Detaches.wordOr {word : String} {v : Literal} {scan : Scan Literal} (hw : IsKeyword word)
    (h : Detaches scan scan fun _ => True) :
    Detaches (wordOr word v scan) (wordOr word v scan) fun _ => True := by
  intro xs s w ys hs hread _
  obtain ⟨hword, rfl⟩ | ⟨hword, hread⟩ := wordOr_iff.mp hread
  · exact wordOr_iff.mpr (.inl ⟨keyword?_detaches hs hw hword, rfl⟩)
  · exact wordOr_iff.mpr (.inr ⟨keyword?_detaches_none hs hw hword, h hs hread trivial⟩)

theorem scanDigits_detaches : Detaches scanDigits scanDigits fun _ => True := by
  refine scanDigits_carries.detaches fun xs s v ys hs h _ => ?_
  obtain ⟨⟨c, hhead, hc⟩, hread⟩ := scanDigits_iff.mp h
  have hnumber := scanNumber_detaches hs hread trivial
  cases xs with
  | nil =>
    -- nothing that closes begins a number
    obtain ⟨more, rfl⟩ := List.head?_eq_some_iff.mp hhead
    have hmark : isBlank c = false ∧ c ≠ ')' ∧ c ≠ ']' := by
      rw [Bool.or_assoc] at hc
      rcases Bool.or_eq_true_iff.mp hc with hdigit | hsign
      · exact ⟨not_isBlank_of_isDigit hdigit, ne_of_isDigit hdigit (by decide),
          ne_of_isDigit hdigit (by decide)⟩
      · rcases Bool.or_eq_true_iff.mp hsign with hc | hc <;> cases beq_iff_eq.mp hc <;> decide
    exact absurd rfl (hs.head_ne hmark.1 hmark.2 more)
  | cons d cs =>
    cases hhead
    exact ⟨_, scanDigits_iff.mpr ⟨⟨c, rfl, hc⟩, hnumber⟩⟩

theorem scanBare_detaches : Detaches scanBare scanBare fun _ => True :=
  ((scanDigits_detaches.wordOr (by decide)).wordOr (by decide)).wordOr (by decide)

theorem scanLiteral_detaches : Detaches scanLiteral scanLiteral fun _ => True := by
  refine scanLiteral_carries.detaches fun xs s v ys hs h _ => ?_
  cases hskip : skipBlanks xs with
  | nil => exact absurd h ((closes_fails (closes_blanks hskip hs)).2.2.2 _)
  | cons c cs =>
    have hbehind := skipBlanks_behind hskip s
    cases scanLiteral_iff.mp h with
    | quoted hquote hread =>
      cases hbehind.symm.trans hquote
      exact ⟨_, scanLiteral_iff.mpr (.quoted hskip (scanText_detaches hread))⟩
    | bare hquote hread =>
      have hne : skipBlanks xs ≠ [] := by simp [hskip]
      rw [skipBlanks_append hne] at hquote hread
      rw [List.head?_append_of_ne_nil _ hne] at hquote
      exact ⟨_, scanLiteral_iff.mpr (.bare hquote (scanBare_detaches hs hread trivial))⟩

theorem scanTest_detaches (a : AttributePath) :
    Detaches (scanTest a) (scanTest a) fun _ => True := by
  refine (scanTest_carries a).detaches fun xs s f ys hs h _ => ?_
  cases scanTest_iff.mp h with
  | present hword =>
    exact ⟨_, scanTest_iff.mpr (.present (keyword?_detaches hs (by decide) hword))⟩
  | compared hword hop hv =>
    obtain ⟨more, rfl⟩ := rest_behind (scanLiteral_carries hv).1
    exact ⟨_, scanTest_iff.mpr (.compared (keyword?_detaches_none hs (by decide) hword)
      (scanOperator_detaches hs hop trivial) (scanLiteral_detaches hs hv trivial))⟩

/-! ### Filters -/

/-- What a filter fits in, and what is nested in one that fits. -/
structure Fits (fits nested : Filter → Prop) : Prop where
  select {a : AttributePath} {f : Filter} (h : fits (.select a f)) : nested f
  narrowed {a : AttributePath} {f t : Filter} (h : fits (.select a (.and f.groupedIfOr t))) :
    nested f
  not {f : Filter} (h : fits (.not f)) : nested f
  group {f : Filter} (h : fits (.group f)) : nested f
  and {f g : Filter} (h : fits (.and f g)) : fits f ∧ fits g
  or {f g : Filter} (h : fits (.or f g)) : fits f ∧ fits g

variable {nested nested' : Scan Filter} {fits inner : Filter → Prop}

theorem Detaches.enclosed (hc : Carries nested' nested)
    (hn : Detaches nested nested' inner) {close : Char} {fault : Malformed} :
    Detaches (scanEnclosed nested close fault) (scanEnclosed nested' close fault) inner := by
  refine (hc.enclosed close fault).detaches fun xs s f ys hs h hfits => ?_
  obtain ⟨rest, hinner, hskip⟩ := scanEnclosed_iff.mp h
  obtain ⟨more, rfl⟩ := rest_behind (skipped_suffix hskip)
  exact ⟨_, scanEnclosed_iff.mpr ⟨more, hn hs hinner hfits, skipBlanks_detaches hskip⟩⟩

theorem behindSelection_detaches (a : AttributePath) (f : Filter) :
    Detaches (behindSelection a f) (behindSelection a f) fun _ => True := by
  refine (behindSelection_carries a f).detaches fun xs s g ys hs h _ => ?_
  unfold behindSelection
  split
  case h_2 => exact ⟨_, rfl⟩
  case h_1 dotted =>
    obtain ⟨⟨name, after⟩, hname, h⟩ := bind_eq_ok.mp h
    obtain ⟨⟨test, last⟩, htest, h⟩ := bind_eq_ok.mp h
    cases h
    obtain ⟨after, rfl⟩ := rest_behind (scanTest_carries _ htest).1
    simp only [scanName_detaches hs hname trivial, scanTest_detaches _ hs htest trivial, bind,
      Except.bind]
    exact ⟨_, rfl⟩

/-- What stands behind a selection leaves its filter nested in the whole. -/
theorem Fits.of_behindSelection (hfit : Fits fits inner) {a : AttributePath} {f g : Filter}
    {cs ys : List Char} (h : behindSelection a f cs = .ok (g, ys)) (hfits : fits g) :
    inner f := by
  cases behindSelection_iff.mp h with
  | dotted => exact hfit.narrowed hfits
  | plain => exact hfit.select hfits

theorem Detaches.attribute (hself : Carries nested nested) (hc : Carries nested' nested)
    (hfit : Fits fits inner) (hn : Detaches nested nested' inner) :
    Detaches (scanAttribute nested) (scanAttribute nested') fits := by
  refine hc.attribute.detaches fun xs s f ys hs h hfits => ?_
  cases scanAttribute_iff.mp h with
  | selected hpath hsub hinner hbehind =>
    obtain ⟨behind, rfl⟩ := rest_behind (behindSelection_carries _ _ hbehind).1
    obtain ⟨opened, rfl⟩ := rest_behind (hself.enclosed _ _ hinner).1
    have hread := hn.enclosed hc hs hinner (hfit.of_behindSelection hbehind hfits)
    exact ⟨_, scanAttribute_iff.mpr (.selected (scanPath_detaches hs hpath trivial) hsub hread
      (behindSelection_detaches _ _ hs hbehind trivial))⟩
  | tested hpath hbracket htest =>
    obtain ⟨more, rfl⟩ := rest_behind (scanTest_carries _ htest).1
    have hbracket' : ∀ opened, more ≠ '[' :: opened := by
      rintro opened rfl
      exact hbracket (opened ++ s) rfl
    exact ⟨_, scanAttribute_iff.mpr (.tested (scanPath_detaches hs hpath trivial) hbracket'
      (scanTest_detaches _ hs htest trivial))⟩

theorem Detaches.operand (hself : Carries nested nested) (hc : Carries nested' nested)
    (hfit : Fits fits inner) (hn : Detaches nested nested' inner) :
    Detaches (scanOperand nested) (scanOperand nested') fits := by
  refine hc.operand.detaches fun xs s f ys hs h hfits => ?_
  cases scanOperand_iff.mp h with
  | negated hword hopen hinner =>
    obtain ⟨opened, rfl⟩ := rest_behind (hself.enclosed _ _ hinner).1
    obtain ⟨more, rfl⟩ := rest_behind (skipped_suffix hopen)
    exact ⟨_, scanOperand_iff.mpr (.negated (keyword?_detaches hs (by decide) hword)
      (skipBlanks_detaches hopen) (hn.enclosed hc hs hinner (hfit.not hfits)))⟩
  | grouped hword hopen hinner =>
    obtain ⟨opened, rfl⟩ := rest_behind (hself.enclosed _ _ hinner).1
    exact ⟨_, scanOperand_iff.mpr (.grouped (keyword?_detaches_none hs (by decide) hword)
      (skipBlanks_detaches hopen) (hn.enclosed hc hs hinner (hfit.group hfits)))⟩
  | atPath hword hopen hread =>
    cases hskip : skipBlanks xs with
    | nil =>
      obtain ⟨⟨a, rest⟩, hpath, -⟩ := bind_eq_ok.mp hread
      have hcloses : Closes (skipBlanks (xs ++ s)) := by
        rw [Closes, skipBlanks_skipBlanks]
        exact closes_blanks hskip hs
      exact absurd hpath ((closes_fails hcloses).2.1 _)
    | cons c cs =>
      rw [skipBlanks_behind hskip] at hread hopen
      have hdetached : scanAttribute nested' (c :: cs) = .ok (f, ys) :=
        hn.attribute hself hc hfit hs (hread : scanAttribute nested (c :: cs ++ s) = _) hfits
      rw [← hskip] at hdetached
      refine ⟨_, scanOperand_iff.mpr (.atPath (keyword?_detaches_none hs (by decide) hword)
        (fun opened hopened => ?_) hdetached)⟩
      cases hskip.symm.trans hopened
      exact hopen _ rfl

section Chains

variable {word : String} {join : Filter → Filter → Filter} {operand operand' : Scan Filter}

/-- A chain fits only with all that it joins. -/
theorem scanChain_fits (hjoin : ∀ {f g}, fits (join f g) → fits f ∧ fits g) {fuel : Nat}
    {left f : Filter} {xs ys : List Char}
    (h : scanChain word join operand fuel left xs = .ok (f, ys)) (hfits : fits f) : fits left := by
  refine scanChain_keeps (p := fun f _ => fits f → fits left) ?_ id h hfits
  intro left right xs more ys _ _ hleft hfits
  exact hleft (hjoin hfits).1

theorem Detaches.chain (hw : IsKeyword word) (hself : Carries operand operand)
    (hjoin : ∀ {f g}, fits (join f g) → fits f ∧ fits g) (ho : Detaches operand operand' fits)
    {s : List Char} (hs : Closes s) {fuel fuel' : Nat} {left f : Filter} {xs ys : List Char}
    (hfuel : (xs ++ s).length ≤ fuel) (hfuel' : xs.length ≤ fuel')
    (h : scanChain word join operand fuel left (xs ++ s) = .ok (f, ys ++ s)) (hfits : fits f) :
    ∃ r, scanChain word join operand' fuel' left xs = .ok r := by
  induction fuel' generalizing left xs fuel with
  | zero => exact ⟨_, rfl⟩
  | succ fuel' ih =>
    simp only [scanChain]
    split
    case h_2 => exact ⟨_, rfl⟩
    case h_1 rest hsome =>
      have hbehind : keyword? word (xs ++ s) = some (rest ++ s) := by
        rw [keyword?_behind hw hs, hsome]
        rfl
      have hshorter := keyword?_shorter hw hsome
      rw [List.length_append] at hfuel
      obtain ⟨fuel, rfl⟩ : ∃ n, fuel = n + 1 := ⟨fuel - 1, by omega⟩
      simp only [scanChain, hbehind] at h
      obtain ⟨⟨right, more⟩, hright, h⟩ := bind_eq_ok.mp h
      dsimp only at h
      have hmore := (hself hright).1.length_le
      rw [List.length_append] at hmore
      obtain ⟨more, rfl⟩ := rest_behind (hself.chain hw 0 (by omega) h).1
      rw [List.length_append] at hmore
      have hread := ho hs hright (hjoin (scanChain_fits hjoin h hfits)).2
      simp only [hread, bind, Except.bind]
      exact ih (by rw [List.length_append]; omega) (by omega) h

theorem Detaches.joined (hw : IsKeyword word) (hself : Carries operand operand)
    (hc : Carries operand' operand) (hjoin : ∀ {f g}, fits (join f g) → fits f ∧ fits g)
    (ho : Detaches operand operand' fits) :
    Detaches (scanJoined word join operand) (scanJoined word join operand') fits := by
  refine (hc.joined hw).detaches fun xs s f ys hs h hfits => ?_
  obtain ⟨⟨left, rest⟩, hleft, h⟩ := bind_eq_ok.mp h
  obtain ⟨more, rfl⟩ := rest_behind (hself.chain hw 0 le_rfl h).1
  simp only [scanJoined, ho hs hleft (scanChain_fits hjoin h hfits), bind, Except.bind]
  exact ho.chain hw hself hjoin hs le_rfl le_rfl h hfits

end Chains

theorem Detaches.filter (hself : Carries nested nested) (hc : Carries nested' nested)
    (hfit : Fits fits inner) (hn : Detaches nested nested' inner) :
    Detaches (scanFilter nested) (scanFilter nested') fits :=
  ((hn.operand hself hc hfit).joined (by decide) hself.operand hc.operand hfit.and).joined
    (by decide) (hself.operand.joined (by decide)) (hc.operand.joined (by decide)) hfit.or

theorem fits_always : Fits (fun _ => True) fun _ => True where
  select _ := trivial
  narrowed _ := trivial
  not _ := trivial
  group _ := trivial
  and _ := ⟨trivial, trivial⟩
  or _ := ⟨trivial, trivial⟩

theorem depth_groupedIfOr (f : Filter) : f.depth ≤ f.groupedIfOr.depth := by
  cases f <;> simp [groupedIfOr, depth]

/-- Each level of nesting leaves one level less for what it encloses. -/
theorem fits_depth (n : Nat) : Fits (fun f => f.depth < n + 1) fun f => f.depth < n where
  select h := by simpa [depth] using h
  narrowed {_ f _} h := by
    have hgrouped := depth_groupedIfOr f
    simp only [depth] at h
    omega
  not h := by simpa [depth] using h
  group h := by simpa [depth] using h
  and h := by simpa [depth] using h
  or h := by simpa [depth] using h

/-- A filter is read alone from the text in front of what closes. -/
theorem scanWithin_detaches (depth : Nat) :
    Detaches (scanWithin depth) (scanWithin depth) fun _ => True := by
  induction depth with
  | zero =>
    intro xs s f ys _ h
    cases h
  | succ depth ih =>
    have hself : Carries (scanWithin depth) (scanWithin depth) := scanWithin_carries le_rfl
    exact ih.filter hself hself fits_always

/-- A filter is read with no more levels than its depth needs. -/
theorem scanWithin_depth {n depth : Nat} (h : n ≤ depth) :
    Detaches (scanWithin depth) (scanWithin n) fun f => f.depth < n := by
  induction n generalizing depth with
  | zero =>
    intro xs s f ys _ _ hfits
    exact absurd hfits (Nat.not_lt_zero _)
  | succ n ih =>
    obtain ⟨depth, rfl⟩ : ∃ m, depth = m + 1 := ⟨depth - 1, by omega⟩
    exact (ih (by omega)).filter (scanWithin_carries le_rfl) (scanWithin_carries (by omega))
      (fits_depth n)

/-! ### Blanks at the ends -/

/-- A text that is read to its end has no blank there. -/
def EndsVisibly {α : Type} (scan : Scan α) : Prop :=
  ∀ ⦃xs x⦄, scan xs = .ok (x, []) → EndsVisible xs

theorem scanTest_visible (a : AttributePath) : EndsVisibly (scanTest a) := by
  intro xs f h
  cases scanTest_iff.mp h with
  | present hword => exact keyword?_visible (by decide) hword
  | compared hword hop hv =>
    exact endsVisible_suffix (scanLiteral_visible hv) (scanOperator_carries hop).1

theorem scanEnclosed_visible (hself : Carries nested nested) {close : Char}
    (hclose : isBlank close = false) {fault : Malformed} :
    EndsVisibly (scanEnclosed nested close fault) := by
  intro xs f h
  obtain ⟨rest, hinner, hskip⟩ := scanEnclosed_iff.mp h
  have hlast : EndsVisible [close] := ⟨[], close, rfl, hclose⟩
  have hsuffix : [close] <:+ rest := hskip ▸ skipBlanks_suffix rest
  exact endsVisible_suffix hlast (hsuffix.trans (hself hinner).1)

/-- What stands behind a selection and is read to its end has no blank there, or is nothing. -/
theorem behindSelection_visible {a : AttributePath} {f g : Filter} {cs : List Char}
    (h : behindSelection a f cs = .ok (g, [])) : cs = [] ∨ EndsVisible cs := by
  generalize hlast : [] = last at h
  cases behindSelection_iff.mp h with
  | dotted hname htest =>
    subst hlast
    have hsuffix := (scanName_carries hname).1.trans (List.suffix_cons '.' _)
    exact .inr (endsVisible_suffix (scanTest_visible _ htest) hsuffix)
  | plain hdot =>
    cases hword : keyword? "pr" cs with
    | none => exact .inl rfl
    | some last =>
      rw [hword] at hlast
      cases hlast
      exact .inr (keyword?_visible (by decide) hword)

theorem scanAttribute_visible (hself : Carries nested nested) :
    EndsVisibly (scanAttribute nested) := by
  intro xs f h
  cases scanAttribute_iff.mp h with
  | tested hpath hbracket htest =>
    exact endsVisible_suffix (scanTest_visible _ htest) (scanPath_carries hpath).1
  | selected hpath hsub hinner hbehind =>
    refine endsVisible_suffix ?_ ((List.suffix_cons ..).trans (scanPath_carries hpath).1)
    rcases behindSelection_visible hbehind with rfl | hvisible
    · exact scanEnclosed_visible hself (by decide) hinner
    · exact endsVisible_suffix hvisible (hself.enclosed _ _ hinner).1

theorem scanOperand_visible (hself : Carries nested nested) :
    EndsVisibly (scanOperand nested) := by
  intro xs f h
  cases scanOperand_iff.mp h with
  | negated hword hopen hinner =>
    exact endsVisible_suffix (scanEnclosed_visible hself (by decide) hinner)
      ((skipped_suffix hopen).trans (keyword?_suffix hword))
  | grouped hword hopen hinner =>
    exact endsVisible_suffix (scanEnclosed_visible hself (by decide) hinner)
      (skipped_suffix hopen)
  | atPath hword hopen hread =>
    exact endsVisible_suffix (scanAttribute_visible hself hread) (skipBlanks_suffix xs)

theorem scanChain_visible {word : String} {join : Filter → Filter → Filter}
    {operand : Scan Filter} (hself : Carries operand operand) (ho : EndsVisibly operand)
    {fuel : Nat} {left f : Filter} {xs : List Char} (hne : xs ≠ [])
    (h : scanChain word join operand fuel left xs = .ok (f, [])) : EndsVisible xs := by
  refine (scanChain_keeps (p := fun _ ys => ys <:+ xs ∧ (ys = [] → EndsVisible xs)) ?_
    ⟨List.suffix_refl xs, fun hnil => absurd hnil hne⟩ h).2 rfl
  rintro left right ys more rest hword hright ⟨hsuffix, -⟩
  have hmore := (keyword?_suffix hword).trans hsuffix
  refine ⟨(hself hright).1.trans hmore, ?_⟩
  rintro rfl
  exact endsVisible_suffix (ho hright) hmore

theorem scanJoined_visible {word : String} {join : Filter → Filter → Filter}
    {operand : Scan Filter} (hself : Carries operand operand) (ho : EndsVisibly operand) :
    EndsVisibly (scanJoined word join operand) := by
  intro xs f h
  obtain ⟨⟨left, rest⟩, hleft, h⟩ := bind_eq_ok.mp h
  cases rest with
  | nil => exact ho hleft
  | cons c rest =>
    exact endsVisible_suffix (scanChain_visible hself ho (by simp) h) (hself hleft).1

theorem scanWithin_visible (depth : Nat) : EndsVisibly (scanWithin depth) := by
  cases depth with
  | zero =>
    intro xs f h
    cases h
  | succ depth =>
    have hself : Carries (scanWithin depth) (scanWithin depth) := scanWithin_carries le_rfl
    exact scanJoined_visible (hself.operand.joined (by decide))
      (scanJoined_visible hself.operand (scanOperand_visible hself))

theorem closes_of_blanks {bs : List Char} (hb : skipBlanks bs = []) : Closes bs := by
  have hcloses := closes_blanks hb closes_nil
  rwa [List.append_nil] at hcloses

/-- Blanks behind a filter are all left over. -/
theorem scanWithin_blanks (depth : Nat) {xs bs rest : List Char} {f : Filter}
    (hb : skipBlanks bs = []) (hrest : skipBlanks rest = [])
    (h : scanWithin depth (xs ++ bs) = .ok (f, rest)) :
    ∃ ys, scanWithin depth xs = .ok (f, ys) ∧ skipBlanks ys = [] := by
  have hself : Carries (scanWithin depth) (scanWithin depth) := scanWithin_carries le_rfl
  obtain ⟨front, hfront⟩ := (hself h).1
  -- what is read ends with no blank, so it ends in front of the blanks
  rw [← hfront] at h
  have hread : scanWithin depth front = .ok (f, []) :=
    scanWithin_detaches depth (closes_of_blanks hrest) h trivial
  rcases List.append_eq_append_iff.mp hfront with ⟨ys, hxs, hbehind⟩ | ⟨more, hfront, hmore⟩
  · subst hxs
    refine ⟨ys, ?_, ?_⟩
    · rw [hbehind] at h
      exact scanWithin_detaches depth (closes_of_blanks hb) (by simpa using h) trivial
    · refine skipBlanks_eq_nil.mpr fun c hc => ?_
      exact skipBlanks_eq_nil.mp hrest c (by simp [hbehind, hc])
  · cases more with
    | nil => exact ⟨[], by simpa [hfront] using hread, rfl⟩
    | cons c more =>
      obtain ⟨before, d, hlast, hvisible⟩ := scanWithin_visible depth hread
      have hmem : d ∈ bs := by
        rw [hfront] at hlast
        have hd : (xs ++ c :: more).getLast? = some d := by rw [hlast, List.getLast?_concat]
        rw [List.getLast?_append_of_ne_nil _ (by simp)] at hd
        rw [hmore]
        exact List.mem_append_left _ (List.mem_of_getLast? hd)
      rw [skipBlanks_eq_nil.mp hb d hmem] at hvisible
      cases hvisible

/-- A filter is read without the blanks at the ends of its text. -/
theorem parse_trimBlanks {text : String} {f : Filter} (h : parse text = .ok f) :
    parse (String.ofList (trimBlanks text.toList)) = .ok f := by
  obtain ⟨hlen, rest, hscan, hrest⟩ := parse_eq_ok.mp h
  obtain ⟨front, back, htext, hfront, hback⟩ := trimBlanks_split text.toList
  rw [scanWithin, ← scanFilter_skip, htext, skipBlanks_blanks hfront, scanFilter_skip] at hscan
  obtain ⟨ys, hread, hys⟩ := scanWithin_blanks (greatestDepth + 1) hback hrest hscan
  refine parse_eq_ok.mpr ⟨?_, ys, by rwa [String.toList_ofList], hys⟩
  rw [String.toList_ofList]
  rw [htext, utf8Length_append, utf8Length_append] at hlen
  omega

/-- What stands in brackets or parentheses is the text of a filter. -/
theorem scanEnclosed_text {depth : Nat} (hdepth : depth ≤ greatestDepth + 1) {close : Char}
    (hclose : close = ')' ∨ close = ']') {fault : Malformed} {xs ys : List Char} {f : Filter}
    (hlen : utf8Length xs ≤ greatestLength)
    (h : scanEnclosed (scanWithin depth) close fault xs = .ok (f, ys)) :
    ∃ text, xs = text ++ close :: ys ∧ parse (String.ofList text) = .ok f := by
  obtain ⟨rest, hinner, hskip⟩ := scanEnclosed_iff.mp h
  obtain ⟨front, hfront⟩ := (scanWithin_carries le_rfl hinner).1
  have hblanks := List.takeWhile_append_dropWhile (p := isBlank) (l := rest)
  rw [show rest.dropWhile isBlank = close :: ys from hskip] at hblanks
  have hread := (scanWithin_carries hdepth hinner).2 closes_nil
  rw [List.append_nil, List.append_nil] at hread
  refine ⟨front ++ rest.takeWhile isBlank, ?_,
    parse_eq_ok.mpr ⟨?_, rest.takeWhile isBlank, ?_, ?_⟩⟩
  · rw [List.append_assoc, hblanks, hfront]
  · rw [String.toList_ofList]
    rw [← hfront, ← hblanks, utf8Length_append, utf8Length_append] at hlen
    rw [utf8Length_append]
    omega
  · rw [String.toList_ofList]
    refine scanWithin_detaches (greatestDepth + 1) (closes_cons hclose ys) ?_ trivial
    rw [List.append_assoc, hblanks, hfront]
    exact hread
  · exact skipBlanks_eq_nil.mpr fun c hc => List.mem_takeWhile_imp hc

end Filter

end Roster
