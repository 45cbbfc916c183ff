import Roster.Expression.Parser
import Roster.Proofs.Filter.Tokens

/-!
Texts whose quotes, brackets and parentheses are closed. Both scanners of a path come out of such
a text as they went in, but for their position; the text of a filter is one.
-/

namespace Roster

namespace Expression

/-- A character that opens or closes something. -/
def isMark (c : Char) : Bool :=
  c == '"' || c == '[' || c == ']' || c == '(' || c == ')'

/-- A character of a path outside its brackets. -/
def isLeadChar (c : Char) : Bool :=
  !isMark c && !isBlank c

/-- The text between quotes: a backslash goes with the character behind it. -/
inductive Quoted : List Char → Prop where
  | nil : Quoted []
  | verbatim {c : Char} {cs : List Char} (hslash : c ≠ '\\') (hquote : c ≠ '"') (h : Quoted cs) :
    Quoted (c :: cs)
  | escape (c : Char) {cs : List Char} (h : Quoted cs) : Quoted ('\\' :: c :: cs)

inductive Balanced : List Char → Prop where
  | nil : Balanced []
  | plain {c : Char} (h : isMark c = false) : Balanced [c]
  | append {xs ys : List Char} (hx : Balanced xs) (hy : Balanced ys) : Balanced (xs ++ ys)
  | quoted {cs : List Char} (h : Quoted cs) : Balanced ('"' :: (cs ++ ['"']))
  | brackets {cs : List Char} (h : Balanced cs) : Balanced ('[' :: (cs ++ [']']))
  | parentheses {cs : List Char} (h : Balanced cs) : Balanced ('(' :: (cs ++ [')']))

/-- A text that stays in the leading path: no blanks, and marks only inside closed brackets. -/
inductive Solid : List Char → Prop where
  | nil : Solid []
  | plain {c : Char} (h : isMark c = false) (hb : isBlank c = false) : Solid [c]
  | append {xs ys : List Char} (hx : Solid xs) (hy : Solid ys) : Solid (xs ++ ys)
  | brackets {cs : List Char} (h : Balanced cs) : Solid ('[' :: (cs ++ [']']))

theorem Solid.balanced {cs : List Char} (h : Solid cs) : Balanced cs := by
  induction h with
  | nil => exact .nil
  | plain h => exact .plain h
  | append _ _ hx hy => exact .append hx hy
  | brackets h => exact .brackets h

theorem Solid.trimmed {cs : List Char} (h : Solid cs) : Trimmed cs := by
  induction h with
  | nil => exact ⟨by simp, by simp⟩
  | plain _ hb => exact ⟨by simpa using hb, by simpa using hb⟩
  | append _ _ hx hy => exact hx.append hy
  | @brackets cs _ =>
    have hlast : ('[' :: (cs ++ [']'])).getLast? = some ']' := by
      rw [← List.cons_append, List.getLast?_concat]
    refine ⟨by simpa using (by decide : isBlank '[' = false), fun c hc => ?_⟩
    cases hlast.symm.trans hc
    decide

theorem Balanced.ofPlain {cs : List Char} (h : cs.all (!isMark ·) = true) : Balanced cs := by
  induction cs with
  | nil => exact .nil
  | cons c cs ih =>
    rw [List.all_cons, Bool.and_eq_true] at h
    exact .append (.plain (by simpa using h.1)) (ih h.2)

theorem Solid.ofLead {cs : List Char} (h : cs.all isLeadChar = true) : Solid cs := by
  induction cs with
  | nil => exact .nil
  | cons c cs ih =>
    rw [List.all_cons, Bool.and_eq_true] at h
    have hc : isMark c = false ∧ isBlank c = false := by simpa [isLeadChar] using h.1
    exact .append (.plain hc.1 hc.2) (ih h.2)

/-- A scan of two texts goes on where that of the first ended. -/
theorem scan_append {σ ε α : Type} {step : σ → α → Except ε σ} {xs ys : List α} {s t : σ}
    (h : xs.foldlM step s = .ok t) : (xs ++ ys).foldlM step s = ys.foldlM step t := by
  rw [List.foldlM_append, h]
  rfl

theorem scan_cons {σ ε α : Type} {step : σ → α → Except ε σ} {x : α} {xs : List α} {s t : σ}
    (h : step s x = .ok t) : (x :: xs).foldlM step s = xs.foldlM step t := by
  rw [List.foldlM_cons, h]
  rfl

theorem escapeLiteralChar_cases (c : Char) :
    (∃ d, escapeLiteralChar c = ['\\', d]) ∨
      escapeLiteralChar c = [c] ∧ c ≠ '\\' ∧ c ≠ '"' := by
  unfold escapeLiteralChar
  split
  case h_6 hquote hslash _ _ _ => exact .inr ⟨rfl, hslash, hquote⟩
  all_goals exact .inl ⟨_, rfl⟩

theorem quoted_escaped (cs : List Char) : Quoted (cs.flatMap escapeLiteralChar) := by
  induction cs with
  | nil => exact .nil
  | cons c cs ih =>
    rw [List.flatMap_cons]
    rcases escapeLiteralChar_cases c with ⟨d, hd⟩ | ⟨hc, hslash, hquote⟩
    · exact hd ▸ .escape d ih
    · exact hc ▸ .verbatim hslash hquote ih

/-! ### Scans that keep track of a position -/

/-- A scan of characters, and the state that differs from a given one by its position behind a
text. -/
structure Scan (σ : Type) where
  step : σ → Char → Except ExpressionError σ
  shifted : σ → List Char → σ
  shifted_nil (s : σ) : shifted s [] = s
  shifted_shifted (s : σ) (xs ys : List Char) :
    shifted (shifted s xs) ys = shifted s (xs ++ ys)

namespace Scan

variable {σ : Type} {m : Scan σ} {s t : σ}

/-- Reading the text moves the position behind it and changes nothing else. -/
def Passes (m : Scan σ) (s : σ) (cs : List Char) : Prop :=
  cs.foldlM m.step s = .ok (m.shifted s cs)

theorem passes_nil : m.Passes s [] :=
  congrArg Except.ok (m.shifted_nil s).symm

theorem passes_one {c : Char} (h : m.step s c = .ok (m.shifted s [c])) : m.Passes s [c] :=
  scan_cons h

theorem Passes.append {xs ys : List Char} (hx : m.Passes s xs)
    (hy : m.Passes (m.shifted s xs) ys) : m.Passes s (xs ++ ys) := by
  rw [Passes, scan_append hx, hy, m.shifted_shifted]

/-- One character leads into a state from which another leads back. -/
structure Encloses (m : Scan σ) (opening closing : Char) (s t : σ) : Prop where
  enter : m.step s opening = .ok (m.shifted t [opening])
  leave (cs : List Char) :
    m.step (m.shifted t cs) closing = .ok (m.shifted s (cs ++ [closing]))

theorem Encloses.passes {opening closing : Char} {cs : List Char}
    (h : m.Encloses opening closing s t) (hinner : m.Passes (m.shifted t [opening]) cs) :
    m.Passes s (opening :: (cs ++ [closing])) := by
  rw [Passes, scan_cons h.enter, scan_append hinner, m.shifted_shifted]
  exact scan_cons (h.leave _)

/-- What a scan does in the states outside and inside quotes. -/
structure Rules (m : Scan σ) (clear quoted : σ → Prop) : Prop where
  clear_shifted {s : σ} (h : clear s) (cs : List Char) : clear (m.shifted s cs)
  quoted_shifted {s : σ} (h : quoted s) (cs : List Char) : quoted (m.shifted s cs)
  plain {s : σ} (h : clear s) {c : Char} (hc : isMark c = false) :
    m.step s c = .ok (m.shifted s [c])
  brackets {s : σ} (h : clear s) : ∃ t, clear t ∧ m.Encloses '[' ']' s t
  parentheses {s : σ} (h : clear s) : ∃ t, clear t ∧ m.Encloses '(' ')' s t
  quotes {s : σ} (h : clear s) : ∃ t, quoted t ∧ m.Encloses '"' '"' s t
  verbatim {s : σ} (h : quoted s) {c : Char} (hslash : c ≠ '\\') (hquote : c ≠ '"') :
    m.step s c = .ok (m.shifted s [c])
  escape {s : σ} (h : quoted s) (c : Char) : m.Passes s ['\\', c]

namespace Rules

variable {clear quoted : σ → Prop}

theorem quotation (r : Rules m clear quoted) {cs : List Char} (hcs : Quoted cs) (h : quoted s) :
    m.Passes s cs := by
  induction hcs generalizing s with
  | nil => exact passes_nil
  | verbatim hslash hquote _ ih =>
    exact (passes_one (r.verbatim h hslash hquote)).append (ih (r.quoted_shifted h _))
  | escape c _ ih => exact (r.escape h c).append (ih (r.quoted_shifted h _))

/-- Balanced text does not change what is open. -/
theorem balanced (r : Rules m clear quoted) {cs : List Char} (hcs : Balanced cs) (h : clear s) :
    m.Passes s cs := by
  -- on how the text is built: what is enclosed is read from another state, of the same kind
  induction hcs generalizing s with
  | nil => exact passes_nil
  | plain hc => exact passes_one (r.plain h hc)
  | append _ _ hx hy => exact (hx h).append (hy (r.clear_shifted h _))
  | quoted hcs =>
    obtain ⟨t, ht, henclosed⟩ := r.quotes h
    exact henclosed.passes (r.quotation hcs (r.quoted_shifted ht _))
  | brackets _ ih =>
    obtain ⟨t, ht, henclosed⟩ := r.brackets h
    exact henclosed.passes (ih (r.clear_shifted ht _))
  | parentheses _ ih =>
    obtain ⟨t, ht, henclosed⟩ := r.parentheses h
    exact henclosed.passes (ih (r.clear_shifted ht _))

end Rules

end Scan

/-! ### The scan for the leading path -/

namespace Boundary

/-- The state behind a text that opens and closes nothing. -/
def shifted (b : Boundary) (cs : List Char) : Boundary :=
  { b with position := b.position + utf8Length cs }

def scan : Scan Boundary where
  step := step
  shifted := shifted
  shifted_nil _ := rfl
  shifted_shifted _ _ _ := by simp [shifted, Nat.add_assoc]

/-- The state inside one more bracket or parenthesis. -/
def push (b : Boundary) (mark : Char × Nat) : Boundary :=
  { b with opened := mark :: b.opened }

/-- Nothing is quoted, and the leading path has ended or brackets are open. -/
structure Past (b : Boundary) : Prop where
  quote : b.quote = none
  escaped : b.escaped = false
  past : (b.lead.isNone && b.opened.isEmpty) = false

theorem past_push {b : Boundary} (hq : b.quote = none) (he : b.escaped = false)
    (mark : Char × Nat) : (b.push mark).Past :=
  ⟨hq, he, by simp [push]⟩

theorem step_plain {b : Boundary} (hq : b.quote = none) {c : Char} (hc : isMark c = false)
    (hlead : (b.lead.isNone && b.opened.isEmpty && isBlank c) = false) :
    b.step c = .ok (b.shifted [c]) := by
  simp only [isMark, Bool.or_eq_false_iff, beq_eq_false_iff_ne] at hc
  have hstay : (b.lead.isNone && b.opened.isEmpty &&
      (isBlank c || c == '(' || c == '"')) = false := by
    simpa [hc] using hlead
  have hplain : b.plain c = .ok b := by
    simp only [plain, hstay]
    simp [hc]
  rw [step, hq, Option.isSome_none, if_neg Bool.false_ne_true, hplain]
  rfl

theorem step_quoted {b : Boundary} (hq : b.quote.isSome = true) (c : Char) :
    b.step c = .ok { b.quoted c with position := b.position + c.utf8Size } := by
  simp [step, hq, bind, Except.bind]

theorem encloses_brackets {b : Boundary} (hq : b.quote = none) :
    scan.Encloses '[' ']' b (b.push ('[', b.position)) where
  enter := by
    simp [scan, step, plain, hq, show isBlank '[' = false by decide, push, shifted, bind,
      Except.bind]
  leave cs := by
    simp [scan, step, plain, hq, push, shifted, Nat.add_assoc, bind, Except.bind]

theorem Past.encloses_parentheses {b : Boundary} (h : b.Past) :
    scan.Encloses '(' ')' b (b.push ('(', b.position)) where
  enter := by
    simp [scan, step, plain, h.quote, h.past, push, Boundary.shifted, bind, Except.bind]
  leave cs := by
    simp [scan, step, plain, h.quote, push, Boundary.shifted, Nat.add_assoc, bind, Except.bind]

theorem Past.encloses_quotes {b : Boundary} (h : b.Past) :
    scan.Encloses '"' '"' b { b with quote := some b.position } where
  enter := by
    simp [scan, step, plain, h.quote, h.past, Boundary.shifted, bind, Except.bind]
  leave cs := by
    simp [scan, step, quoted, h.quote, h.escaped, Boundary.shifted, Nat.add_assoc, bind,
      Except.bind]

theorem rules : scan.Rules Past fun b => b.quote.isSome = true ∧ b.escaped = false where
  clear_shifted h _ := ⟨h.quote, h.escaped, h.past⟩
  quoted_shifted h _ := h
  plain h _ hc := step_plain h.quote hc (by rw [h.past, Bool.false_and])
  brackets h := ⟨_, past_push h.quote h.escaped _, encloses_brackets h.quote⟩
  parentheses h := ⟨_, past_push h.quote h.escaped _, h.encloses_parentheses⟩
  quotes {b} h := ⟨{ b with quote := some b.position }, ⟨rfl, h.escaped⟩, h.encloses_quotes⟩
  verbatim h _ hslash hquote := by
    simp [scan, step_quoted h.1, quoted, h.2, hslash, hquote, shifted]
  escape h c := by
    rw [Scan.Passes]
    refine (scan_cons (step_quoted h.1 _)).trans ?_
    refine (scan_cons (step_quoted (by simp [quoted, h.2, h.1]) _)).trans ?_
    simp [scan, quoted, h.2, shifted, Nat.add_assoc, pure, Except.pure]

end Boundary

/-- Balanced text does not change what is open or where the leading path ended. -/
theorem Balanced.scan_boundary {cs : List Char} (h : Balanced cs) {b : Boundary} (hb : b.Past) :
    cs.foldlM Boundary.step b = .ok (b.shifted cs) :=
  Boundary.rules.balanced h hb

/-- Text of the leading path does not end it. -/
theorem Solid.scan_boundary {cs : List Char} (h : Solid cs) {b : Boundary} (hq : b.quote = none)
    (he : b.escaped = false) : cs.foldlM Boundary.step b = .ok (b.shifted cs) := by
  change Boundary.scan.Passes b cs
  induction h generalizing b with
  | nil => exact Scan.passes_nil
  | plain hc hblank =>
    exact Scan.passes_one (Boundary.step_plain hq hc (by rw [hblank, Bool.and_false]))
  | append _ _ hx hy => exact (hx hq he).append (hy hq he)
  | brackets h =>
    have hinner := Boundary.rules.clear_shifted (Boundary.past_push hq he ('[', b.position)) ['[']
    exact (Boundary.encloses_brackets hq).passes (Boundary.rules.balanced h hinner)

/-- The leading path ends where a blank, a parenthesis or a quote follows it. -/
theorem leadEnd_append {front back : List Char} (hf : Solid front)
    (hall : Balanced (front ++ back))
    (hstart : ∀ c ∈ back.head?, (isBlank c || c == '(' || c == '"') = true) :
    leadEnd (front ++ back) = .ok (utf8Length front) := by
  have hfront := hf.scan_boundary (b := ⟨0, none, false, [], none⟩) rfl rfl
  rw [leadEnd, scan_append hfront]
  cases back with
  | nil => simp [Boundary.shifted, pure, Except.pure, bind, Except.bind]
  | cons c back =>
    -- the first character behind the path ends it before it is looked at as any other
    have hstep : (Boundary.shifted ⟨0, none, false, [], none⟩ front).step c =
        (Boundary.shifted ⟨0, none, false, [], some (utf8Length front)⟩ front).step c := by
      simp [Boundary.step, Boundary.plain, Boundary.shifted, hstart c rfl]
    have hpast : Boundary.Past ⟨0, none, false, [], some (utf8Length front)⟩ := ⟨rfl, rfl, rfl⟩
    have hwhole := hall.scan_boundary hpast
    rw [scan_append (hf.balanced.scan_boundary hpast)] at hwhole
    rw [List.foldlM_cons, hstep, ← List.foldlM_cons, hwhole]
    simp [Boundary.shifted, bind, Except.bind]

/-! ### The scan for components -/

namespace Splitter

/-- The state behind a text that opens and closes nothing. -/
def shifted (s : Splitter) (cs : List Char) : Splitter :=
  { s with position := s.position + utf8Length cs }

theorem shifted_shifted (s : Splitter) (xs ys : List Char) :
    (s.shifted xs).shifted ys = s.shifted (xs ++ ys) := by
  simp [shifted, Nat.add_assoc]

variable (text : List Char) (offset : Nat)

def scan : Scan Splitter where
  step := step text offset
  shifted := shifted
  shifted_nil _ := rfl
  shifted_shifted := shifted_shifted

/-- Inside brackets, and nothing is quoted. -/
structure Within (s : Splitter) : Prop where
  depth : s.depth ≠ 0
  quoted : s.quoted = false
  escaped : s.escaped = false

variable {s : Splitter}

theorem Within.step_plain (h : s.Within) {c : Char} (hc : c ≠ '"' ∧ c ≠ '[' ∧ c ≠ ']') :
    step text offset s c = .ok (s.shifted [c]) := by
  simp [step, h.quoted, h.depth, hc, Splitter.shifted, bind, Except.bind]

theorem Within.encloses_brackets (h : s.Within) :
    (scan text offset).Encloses '[' ']' s { s with depth := s.depth + 1 } where
  enter := by
    simp [scan, step, h.quoted, h.depth, Splitter.shifted, bind, Except.bind]
  leave cs := by
    have hd := h.depth
    simp [scan, step, h.quoted, hd, Splitter.shifted, Nat.add_assoc, bind, Except.bind]

theorem Within.encloses_parentheses (h : s.Within) :
    (scan text offset).Encloses '(' ')' s s where
  enter := h.step_plain text offset (by decide)
  leave cs := by
    have hs : (s.shifted cs).Within := ⟨h.depth, h.quoted, h.escaped⟩
    exact (hs.step_plain text offset (by decide)).trans
      (congrArg Except.ok (shifted_shifted s cs _))

theorem Within.encloses_quotes (h : s.Within) :
    (scan text offset).Encloses '"' '"' s { s with quoted := true } where
  enter := by
    simp [scan, step, h.quoted, h.depth, Splitter.shifted, bind, Except.bind]
  leave cs := by
    simp [scan, step, h.quoted, h.escaped, Splitter.shifted, Nat.add_assoc, bind, Except.bind]

theorem rules :
    (scan text offset).Rules Within fun s => s.quoted = true ∧ s.escaped = false where
  clear_shifted h _ := ⟨h.depth, h.quoted, h.escaped⟩
  quoted_shifted h _ := h
  plain h _ hc := by
    simp only [isMark, Bool.or_eq_false_iff, beq_eq_false_iff_ne] at hc
    exact h.step_plain text offset ⟨hc.1.1.1.1, hc.1.1.1.2, hc.1.1.2⟩
  brackets {s} h := ⟨{ s with depth := s.depth + 1 }, ⟨Nat.succ_ne_zero _, h.quoted, h.escaped⟩,
    h.encloses_brackets text offset⟩
  parentheses h := ⟨_, h, h.encloses_parentheses text offset⟩
  quotes {s} h := ⟨{ s with quoted := true }, ⟨rfl, h.escaped⟩, h.encloses_quotes text offset⟩
  verbatim h _ hslash hquote := by
    simp [scan, step, h.1, h.2, hslash, hquote, shifted, bind, Except.bind]
  escape h c := by
    simp [Scan.Passes, scan, step, h.1, h.2, shifted, Nat.add_assoc, pure, Except.pure, bind,
      Except.bind]

end Splitter

/-- Inside brackets balanced text is passed over. -/
theorem Balanced.scan_splitter {text : List Char} {offset : Nat} {cs : List Char} (h : Balanced cs)
    {s : Splitter} (hs : s.Within) :
    cs.foldlM (Splitter.step text offset) s = .ok (s.shifted cs) :=
  (Splitter.rules text offset).balanced h hs

/-! ### Filters -/

theorem isMark_of_isQualifiedChar {c : Char} (h : Filter.isQualifiedChar c = true) :
    isMark c = false := by
  rw [Bool.eq_false_iff]
  intro hm
  simp only [isMark, Bool.or_eq_true, beq_iff_eq] at hm
  rcases hm with (((rfl | rfl) | rfl) | rfl) | rfl <;> exact absurd h (by decide)

theorem isMark_of_isNameChar {c : Char} (h : isNameChar c = true) : isMark c = false :=
  isMark_of_isQualifiedChar (isQualifiedChar_of_isNameChar h)

theorem isMark_of_isLetter {c : Char} (h : isLetter c = true) : isMark c = false :=
  isMark_of_isNameChar (isNameChar_of_isLetter h)

theorem Solid.ofQualified {cs : List Char} (h : cs.all Filter.isQualifiedChar = true) :
    Solid cs :=
  .ofLead <| List.all_eq_true.mpr fun c hc => by
    have hq := List.all_eq_true.mp h c hc
    simp [isLeadChar, isMark_of_isQualifiedChar hq, not_isBlank_of_isQualifiedChar hq]

theorem solid_path {a : AttributePath} (h : a.WellFormed) : Solid a.toText.toList :=
  .ofQualified (Filter.toText_qualifiedChars h)

theorem Balanced.cons {c : Char} {cs : List Char} (hc : isMark c = false) (h : Balanced cs) :
    Balanced (c :: cs) :=
  .append (.plain hc) h

theorem balanced_literal (v : Literal) : Balanced v.toText.toList := by
  cases v with
  | text s =>
    have h := Balanced.quoted (quoted_escaped s.toList)
    simpa [Literal.toText, quoteLiteral] using h
  | bool b => cases b <;> exact .ofPlain (by decide)
  | null => exact .ofPlain (by decide)
  | number d => exact (Solid.ofQualified (Filter.number_qualified d)).balanced

theorem balanced_word (op : CompareOp) : Balanced op.word.toList := by
  cases op <;> exact .ofPlain (by decide)

theorem balanced_filter {f : Filter} (h : f.WellFormed) : Balanced f.toText.toList := by
  induction f with
  | compare a op v =>
    have hvalue := (balanced_literal v).cons (c := ' ') (by decide)
    have htest := ((balanced_word op).append hvalue).cons (c := ' ') (by decide)
    simpa [Filter.toText] using (solid_path h.1).balanced.append htest
  | present a =>
    have hpr : Balanced " pr".toList := .ofPlain (by decide)
    simpa [Filter.toText] using (solid_path h).balanced.append hpr
  | select a f ih =>
    simpa [Filter.toText] using (solid_path h.1).balanced.append (ih h.2.2).brackets
  | and f g ihf ihg =>
    have hand : Balanced " and ".toList := .ofPlain (by decide)
    simpa [Filter.toText] using (ihf h.2.2.1).append (hand.append (ihg h.2.2.2))
  | or f g ihf ihg =>
    have hor : Balanced " or ".toList := .ofPlain (by decide)
    simpa [Filter.toText] using (ihf h.2.1).append (hor.append (ihg h.2.2))
  | not f ih =>
    have hnot : Balanced "not ".toList := .ofPlain (by decide)
    simpa [Filter.toText] using hnot.append (ih h).parentheses
  | group f ih => simpa [Filter.toText] using (ih h).parentheses

end Expression

end Roster
