import Roster.Proofs.Expression.Split

/-!
The scan for the leading path keeps what is open on a stack, and the scan for components counts
brackets. Over the same text both see the bracket of a component closed at the same place, behind
balanced text.
-/

namespace Roster

namespace Expression

/-! ### What is left open -/

/-- A text with brackets and parentheses left open, the innermost first, and balanced but for
these. -/
inductive Pending : List Char → List Char → Prop where
  | closed {xs : List Char} (h : Balanced xs) : Pending [] xs
  | opened {stack xs ys : List Char} (o : Char) (h : Pending stack xs) (hy : Balanced ys) :
    Pending (o :: stack) (xs ++ o :: ys)

theorem Pending.append {stack xs ys : List Char} (h : Pending stack xs) (hy : Balanced ys) :
    Pending stack (xs ++ ys) := by
  cases h with
  | closed h => exact .closed (h.append hy)
  | opened o h hz =>
    rw [List.append_assoc, List.cons_append]
    exact .opened o h (hz.append hy)

/-- A closing character ends what was opened last. -/
theorem Pending.close {stack xs : List Char} {o c : Char} (h : Pending (o :: stack) xs)
    (hc : ∀ {ys : List Char}, Balanced ys → Balanced (o :: (ys ++ [c]))) :
    Pending stack (xs ++ [c]) := by
  cases h with
  | opened _ h hy =>
    rw [List.append_assoc, List.cons_append]
    exact h.append (hc hy)

theorem Quoted.append {xs ys : List Char} (hx : Quoted xs) (hy : Quoted ys) :
    Quoted (xs ++ ys) := by
  induction hx with
  | nil => exact hy
  | verbatim hslash hquote _ ih => exact .verbatim hslash hquote ih
  | escape c _ ih => exact .escape c ih

namespace Boundary

/-- What a step of the scan for the leading path does to what is open. -/
inductive Moves (b : Boundary) (c : Char) (t : Boundary) : Prop where
  | escaped (hq : b.quote.isSome = true) (he : b.escaped = true) (ho : t.opened = b.opened)
      (htq : t.quote.isSome = true) (hte : t.escaped = false)
  | slash (hq : b.quote.isSome = true) (he : b.escaped = false) (hc : c = '\\')
      (ho : t.opened = b.opened) (htq : t.quote.isSome = true) (hte : t.escaped = true)
  | unquote (hq : b.quote.isSome = true) (he : b.escaped = false) (hc : c = '"')
      (ho : t.opened = b.opened) (htq : t.quote = none) (hte : t.escaped = false)
  | verbatim (hq : b.quote.isSome = true) (he : b.escaped = false) (hslash : c ≠ '\\')
      (hquote : c ≠ '"') (ho : t.opened = b.opened) (htq : t.quote.isSome = true)
      (hte : t.escaped = false)
  | quote (hq : b.quote = none) (hc : c = '"') (ho : t.opened = b.opened)
      (htq : t.quote.isSome = true) (hte : t.escaped = b.escaped)
  | opening (hq : b.quote = none) (hc : c = '[' ∨ c = '(')
      (ho : t.opened = (c, b.position) :: b.opened) (htq : t.quote = none)
      (hte : t.escaped = b.escaped)
  | closing {o : Char} {n : Nat} (hq : b.quote = none) (hc : o = '[' ∧ c = ']' ∨ o = '(' ∧ c = ')')
      (ho : b.opened = (o, n) :: t.opened) (htq : t.quote = none) (hte : t.escaped = b.escaped)
  | plain (hq : b.quote = none) (hc : isMark c = false) (ho : t.opened = b.opened)
      (htq : t.quote = none) (hte : t.escaped = b.escaped)

theorem quoted_moves {b : Boundary} {c : Char} {n : Nat} (hq : b.quote.isSome = true) :
    Moves b c { b.quoted c with position := n } := by
  unfold Boundary.quoted
  split_ifs with he hslash hquote
  · exact .escaped hq he rfl hq rfl
  · exact .slash hq (by simpa using he) (by simpa using hslash) rfl hq rfl
  · exact .unquote hq (by simpa using he) (by simpa using hquote) rfl rfl (by simpa using he)
  · exact .verbatim hq (by simpa using he) (by simpa using hslash) (by simpa using hquote) rfl hq
      (by simpa using he)

/-- Where the leading path ends plays no part in it. -/
theorem mark_moves {b t : Boundary} {c : Char} {n : Nat} (lead : Option Nat) (hq : b.quote = none)
    (h : mark { b with lead } c = .ok t) : Moves b c { t with position := n } := by
  simp only [mark] at h
  split at h
  case isTrue hquote =>
    cases h
    exact .quote hq (by simpa using hquote) rfl rfl rfl
  case isFalse hquote =>
    split at h
    case isTrue hopens =>
      cases h
      exact .opening hq (by simpa using hopens) rfl hq rfl
    case isFalse hopens =>
      split at h
      case isFalse hcloses =>
        cases h
        exact .plain hq (by simp_all [isMark]) rfl hq rfl
      case isTrue hcloses =>
        split at h
        case h_2 => cases h
        case h_1 o m rest hfirst =>
          obtain ⟨ho, h⟩ := guard_eq_ok.mp ((ite_not ..).trans h)
          cases h
          refine .closing (o := o) (n := m) hq ?_ hfirst hq rfl
          rcases Bool.or_eq_true_iff.mp hcloses with hc | hc
          · cases beq_iff_eq.mp hc
            exact .inl ⟨by simpa using ho, rfl⟩
          · cases beq_iff_eq.mp hc
            exact .inr ⟨by simpa using ho, rfl⟩

theorem step_moves {b t : Boundary} {c : Char} (h : b.step c = .ok t) : Moves b c t := by
  simp only [step] at h
  split at h
  case isTrue hq =>
    cases h
    exact quoted_moves hq
  case isFalse hq =>
    rw [Option.not_isSome_iff_eq_none] at hq
    obtain ⟨next, hnext, h⟩ := bind_eq_ok.mp h
    cases h
    change (if _ then { b with lead := some b.position } else b).mark c = .ok next at hnext
    split at hnext
    · exact mark_moves _ hq hnext
    · exact mark_moves b.lead hq hnext

/-- The text that a scan has read since `base` was open, of which nothing has been closed: the marks
that the text left open stand above it, and the text may end inside of quotes. -/
inductive Above (base : List (Char × Nat)) (b : Boundary) (cs : List Char) : Prop where
  | clear (stack : List (Char × Nat)) (hopened : b.opened = stack ++ base) (hq : b.quote = none)
      (he : b.escaped = false) (h : Pending (stack.map Prod.fst) cs)
  | quoted (stack : List (Char × Nat)) (hopened : b.opened = stack ++ base)
      (hq : b.quote.isSome = true) {xs qs : List Char} (h : Pending (stack.map Prod.fst) xs)
      (hqs : Quoted qs) (hcs : cs = xs ++ '"' :: (qs ++ if b.escaped then ['\\'] else []))

theorem Above.opened {base : List (Char × Nat)} {b : Boundary} {cs : List Char}
    (h : b.Above base cs) : ∃ stack, b.opened = stack ++ base := by
  cases h with
  | clear stack hopened => exact ⟨stack, hopened⟩
  | quoted stack hopened => exact ⟨stack, hopened⟩

/-- A step goes on above the base, or closes the base behind balanced text. -/
theorem Above.step {base : List (Char × Nat)} {b t : Boundary} {cs : List Char} {c : Char}
    (h : b.Above base cs) (hstep : b.step c = .ok t) :
    t.Above base (cs ++ [c]) ∨ Balanced cs ∧ base = b.opened ∧
      ∃ o n, b.opened = (o, n) :: t.opened ∧ (o = '[' ∧ c = ']' ∨ o = '(' ∧ c = ')') := by
  cases h with
  | clear stack hopened hq he h =>
    cases step_moves hstep with
    | escaped hquote => simp [hq] at hquote
    | slash hquote => simp [hq] at hquote
    | unquote hquote => simp [hq] at hquote
    | verbatim hquote => simp [hq] at hquote
    | quote _ hc ho htq hte =>
      refine .inl (.quoted stack (ho.trans hopened) htq h .nil ?_)
      simp [hc, hte, he]
    | opening _ hc ho htq hte =>
      refine .inl (.clear ((c, b.position) :: stack) (by simp [ho, hopened]) htq (hte.trans he) ?_)
      exact .opened c h .nil
    | plain _ hc ho htq hte =>
      exact .inl (.clear stack (ho.trans hopened) htq (hte.trans he) (h.append (.plain hc)))
    | @closing o n _ hc ho htq hte =>
      -- with nothing above it the base is closed, and else the mark above
      cases stack with
      | nil =>
        cases h with
        | closed h => exact .inr ⟨h, hopened.symm, o, n, ho, hc⟩
      | cons top stack =>
        obtain ⟨rfl, hrest⟩ := List.cons.inj (ho.symm.trans hopened)
        refine .inl (.clear stack hrest htq (hte.trans he) (h.close fun hy => ?_))
        rcases hc with ⟨rfl, rfl⟩ | ⟨rfl, rfl⟩
        · exact .brackets hy
        · exact .parentheses hy
  | @quoted stack hopened hq xs qs h hqs hcs =>
    cases step_moves hstep with
    | escaped _ he ho htq hte =>
      refine .inl (.quoted stack (ho.trans hopened) htq h (hqs.append (.escape c .nil)) ?_)
      simp [hcs, he, hte]
    | slash _ he hc ho htq hte =>
      refine .inl (.quoted stack (ho.trans hopened) htq h hqs ?_)
      simp [hcs, he, hte, hc]
    | verbatim _ he hslash hquote ho htq hte =>
      refine .inl (.quoted stack (ho.trans hopened) htq h
        (hqs.append (.verbatim hslash hquote .nil)) ?_)
      simp [hcs, he, hte]
    | unquote _ he hc ho htq hte =>
      refine .inl (.clear stack (ho.trans hopened) htq hte ?_)
      have hpiece := h.append (.quoted hqs)
      simpa [hcs, he, hc] using hpiece
    | quote hnone => simp [hnone] at hq
    | opening hnone => simp [hnone] at hq
    | closing hnone => simp [hnone] at hq
    | plain hnone => simp [hnone] at hq

/-- How many brackets are open. -/
def brackets (b : Boundary) : Nat :=
  (b.opened.filter (·.1 == '[')).length

theorem Above.brackets_pos {rest : List (Char × Nat)} {n : Nat} {b : Boundary} {cs : List Char}
    (h : b.Above (('[', n) :: rest) cs) : b.brackets ≠ 0 := by
  obtain ⟨stack, hopened⟩ := h.opened
  simp [brackets, hopened]

end Boundary

/-! ### The two scans together -/

/-- Both scans have read the same text, of which `current` belongs to the component that is being
read. Inside the bracket of the component the one has closed nothing that it opened before. -/
structure Agree (s : Splitter) (b : Boundary) (before current : List Char) : Prop where
  reads : s.Reads before current
  marks : s.marks = b.marks
  unescaped : b.quote = none → b.escaped = false
  nested : ∀ opened ∈ s.bracket, ∃ name inside, current = name ++ '[' :: inside ∧
    opened = utf8Length (before ++ name) ∧
      (s.closed = true ∧ (∃ filter, inside = filter ++ [']'] ∧ Balanced filter) ∨
        s.closed = false ∧ ∃ n rest, (∀ mark ∈ rest, mark.1 ≠ '[') ∧
          b.Above (('[', n) :: rest) inside)

namespace Agree

variable {text : List Char} {offset : Nat} {s t : Splitter} {b b' : Boundary}
  {before current rest : List Char} {c : Char}

theorem depth (h : Agree s b before current) : s.depth = b.brackets :=
  congrArg Opened.brackets h.marks

/-- The bracket of a component closes where the scan for the leading path closes it, behind balanced
text. -/
theorem inside (h : Agree s b before current) (hb : b.step c = .ok b') (hopen : s.closed = false)
    (hdepth : t.depth = b'.brackets) (hclosed : s.depth ≠ 0 → (t.closed = true ↔ t.depth = 0)) :
    ∀ opened ∈ s.bracket, ∃ name inside, current ++ [c] = name ++ '[' :: inside ∧
      opened = utf8Length (before ++ name) ∧
        (t.closed = true ∧ (∃ filter, inside = filter ++ [']'] ∧ Balanced filter) ∨
          t.closed = false ∧ ∃ n rest, (∀ mark ∈ rest, mark.1 ≠ '[') ∧
            b'.Above (('[', n) :: rest) inside) := by
  intro opened hopened
  obtain ⟨name, inside, rfl, hname, ⟨hshut, -⟩ | ⟨-, n, rest, hrest, habove⟩⟩ :=
    h.nested opened hopened
  · simp [hopen] at hshut
  have hclosed := hclosed (h.depth ▸ habove.brackets_pos)
  refine ⟨name, inside ++ [c], by simp, hname, ?_⟩
  rcases habove.step hb with hnext | ⟨hbalanced, hbase, o, m, ho, hc⟩
  · refine .inr ⟨?_, n, rest, hrest, hnext⟩
    rw [← Bool.not_eq_true, hclosed, hdepth]
    exact hnext.brackets_pos
  · -- the bracket itself was on top, and no other is open below it
    obtain ⟨hmark, rfl⟩ := List.cons.inj (hbase.trans ho)
    cases hmark
    obtain rfl : c = ']' := by simpa using hc
    have hnone : b'.brackets = 0 := by simpa [Boundary.brackets] using hrest
    exact .inl ⟨hclosed.mpr (hdepth.trans hnone), inside, rfl, hbalanced⟩

/-- Where a bracket opens with none open before it, nothing has been read inside of it. -/
theorem opening (h : Agree s b before current) (hb : b.step '[' = .ok b')
    (hq : s.quoted = false) (hd : s.depth = 0) :
    ∃ n rest, (∀ mark ∈ rest, mark.1 ≠ '[') ∧ b'.Above (('[', n) :: rest) [] := by
  have hquote : b.quote = none := by
    have hmarks := congrArg Opened.quoted h.marks
    simpa [Splitter.marks, Boundary.marks, hq] using hmarks.symm
  have hnone : ∀ mark ∈ b.opened, mark.1 ≠ '[' := by
    have hbrackets := h.depth.symm.trans hd
    simpa [Boundary.brackets] using hbrackets
  cases Boundary.step_moves hb with
  | escaped hsome => simp [hquote] at hsome
  | slash hsome => simp [hquote] at hsome
  | unquote hsome => simp [hquote] at hsome
  | verbatim hsome => simp [hquote] at hsome
  | quote _ hc => exact absurd hc (by decide)
  | closing _ hc => exact absurd hc (by simp)
  | plain _ hc => exact absurd hc (by decide)
  | opening _ _ ho htq hte =>
    exact ⟨b.position, b.opened, hnone, .clear [] ho htq (hte.trans (h.unescaped hquote))
      (.closed .nil)⟩

/-- A step of both scans reads one more character of the component, or ends it with a dot. -/
theorem step (h : Agree s b before current) (htext : text = before ++ (current ++ c :: rest))
    (hs : Splitter.step text offset s c = .ok t) (hb : b.step c = .ok b') :
    Agree t b' before (current ++ [c]) ∨
      c = '.' ∧ Agree t b' (before ++ (current ++ ['.'])) [] := by
  have hmoves := Splitter.step_moves hs
  have hmarks : t.marks = b'.marks := by
    rw [hmoves.marks, h.marks, Boundary.step_marks hb]
  have hdepth : t.depth = b'.brackets := congrArg Opened.brackets hmarks
  -- only within quotes something is escaped, so the case of each step decides it
  have hunescaped : b'.quote = none → b'.escaped = false := by
    intro hnone
    cases Boundary.step_moves hb with
    | escaped _ _ _ hsome => simp [hnone] at hsome
    | slash _ _ _ _ hsome => simp [hnone] at hsome
    | verbatim _ _ _ _ _ hsome => simp [hnone] at hsome
    | quote _ _ _ hsome => simp [hnone] at hsome
    | unquote _ _ _ _ _ hte => exact hte
    | opening hq _ _ _ hte => exact hte.trans (h.unescaped hq)
    | closing hq _ _ _ hte => exact hte.trans (h.unescaped hq)
    | plain hq _ _ _ hte => exact hte.trans (h.unescaped hq)
  rcases h.reads.step htext hmoves with ⟨hparts, hreads⟩ | ⟨p, -, hc, -, hreads⟩
  · refine .inl ⟨hreads, hmarks, hunescaped, ?_⟩
    cases hmoves with
    | dot => simp at hparts
    | quoted hq =>
      have hopen := h.reads.unclosed (.inl hq)
      exact h.inside hb hopen hdepth fun hd => by simp [hopen, hd]
    | quote _ hd =>
      have hopen := h.reads.unclosed (.inr hd)
      exact h.inside hb hopen hdepth fun hd => by simp [hopen, hd]
    | plain _ hd =>
      have hopen := h.reads.unclosed (.inr hd)
      exact h.inside hb hopen hdepth fun hd => by simp [hopen, hd]
    | opening hq hd hc =>
      have hopen := h.reads.unclosed (.inr hd)
      subst hc
      by_cases hzero : s.depth = 0
      · rintro opened hopened
        simp only [hzero, beq_self_eq_true, if_true, Option.mem_def, Option.some.injEq] at hopened
        exact ⟨current, [], rfl, by rw [← hopened, h.reads.position],
          .inr ⟨hopen, h.opening hb hq hzero⟩⟩
      · rw [if_neg (by simpa using hzero)]
        exact h.inside hb hopen hdepth fun _ => by simp [hopen]
    | closing _ hd =>
      have hopen := h.reads.unclosed (.inr hd)
      exact h.inside hb hopen hdepth fun hd => by simp [hopen]; omega
  · refine .inr ⟨hc, hreads, hmarks, hunescaped, fun opened hopened => ?_⟩
    obtain ⟨name, inside, hnil, -⟩ := hreads.bracket opened hopened
    simp at hnil

theorem run {cs : List Char} (h : Agree s b before current)
    (htext : text = before ++ (current ++ (cs ++ rest)))
    (hs : cs.foldlM (Splitter.step text offset) s = .ok t)
    (hb : cs.foldlM Boundary.step b = .ok b') :
    ∃ before current, text = before ++ (current ++ rest) ∧ Agree t b' before current := by
  induction cs generalizing s b before current with
  | nil =>
    cases hs
    cases hb
    exact ⟨before, current, htext, h⟩
  | cons c cs ih =>
    rw [List.foldlM_cons] at hs hb
    obtain ⟨s₁, hs₁, hs⟩ := bind_eq_ok.mp hs
    obtain ⟨b₁, hb₁, hb⟩ := bind_eq_ok.mp hb
    rcases h.step htext hs₁ hb₁ with hnext | ⟨hdot, hnext⟩
    · exact ih hnext (by simp [htext]) hs hb
    · exact ih hnext (by simp [htext, hdot]) hs hb

theorem start (hq : b.quote = none) (he : b.escaped = false) (ho : b.opened = []) :
    Agree (.fresh [] []) b [] [] where
  reads := ⟨rfl, rfl, by simp [Splitter.fresh], by simp [Splitter.fresh]⟩
  marks := by simp [Splitter.marks, Splitter.fresh, Boundary.marks, hq, he, ho]
  unescaped _ := he
  nested := by simp [Splitter.fresh]

end Agree

end Expression

end Roster
