import Roster.Proofs.Expression.Shape

/-!
The leading path of a text and its components, as parts of the text: the path ends where nothing is
quoted or open, and joining the components gives the text back.
-/

namespace Roster

namespace Expression

/-! ### What is open -/

/-- What a scan of a text has seen opened: whether it is inside quotes, or behind a backslash
there, and how many brackets are open. -/
structure Opened where
  quoted : Bool
  escaped : Bool
  brackets : Nat

def Opened.step (o : Opened) (c : Char) : Opened :=
  if o.quoted then
    if o.escaped then { o with escaped := false }
    else if c == '\\' then { o with escaped := true }
    else if c == '"' then { o with quoted := false }
    else o
  else if c == '"' then { o with quoted := true }
  else if c == '[' then { o with brackets := o.brackets + 1 }
  else if c == ']' then { o with brackets := o.brackets - 1 }
  else o

def Boundary.marks (b : Boundary) : Opened :=
  ⟨b.quote.isSome, b.escaped, (b.opened.filter (·.1 == '[')).length⟩

def Splitter.marks (s : Splitter) : Opened :=
  ⟨s.quoted, s.escaped, s.depth⟩

theorem Boundary.quoted_marks {b : Boundary} (hq : b.quote.isSome = true) (c : Char) :
    (b.quoted c).marks = b.marks.step c := by
  simp only [Boundary.quoted, Boundary.marks, Opened.step, hq, if_true]
  repeat' split
  all_goals simp_all

/-- What opens or closes outside quotes, apart from the end of the leading path. -/
def Boundary.mark (b : Boundary) (c : Char) : Except ExpressionError Boundary :=
  if c == '"' then .ok { b with quote := some b.position }
  else if c == '[' || c == '(' then .ok { b with opened := (c, b.position) :: b.opened }
  else if c == ']' || c == ')' then
    match b.opened with
    | (o, _) :: rest =>
      if o == (if c == ']' then '[' else '(') then .ok { b with opened := rest }
      else .error (malformed (.unbalanced c) b.position)
    | [] => .error (malformed (.unbalanced c) b.position)
  else .ok b

theorem Boundary.plain_eq (b : Boundary) (c : Char) : ∃ found : Boundary,
    b.plain c = found.mark c ∧ found.marks = b.marks := by
  refine ⟨_, rfl, ?_⟩
  split <;> rfl

theorem Boundary.mark_marks {b t : Boundary} {c : Char} (hq : b.marks.quoted = false)
    (h : b.mark c = .ok t) : t.marks = b.marks.step c := by
  simp only [Opened.step, hq, Bool.false_eq_true, if_false]
  simp only [mark] at h
  split at h
  case isTrue hquote =>
    cases h
    rw [if_pos hquote]
    rfl
  case isFalse hquote =>
    rw [if_neg hquote]
    split at h
    case isTrue hopens =>
      cases h
      rcases Bool.or_eq_true_iff.mp hopens with hbracket | hparen
      · cases beq_iff_eq.mp hbracket
        rw [if_pos (by decide), ← hq]
        rfl
      · cases beq_iff_eq.mp hparen
        rw [if_neg (by decide), if_neg (by decide)]
        rfl
    case isFalse hopens =>
      rw [if_neg fun hbracket => hopens (by rw [hbracket, Bool.true_or])]
      split at h
      case isFalse hcloses =>
        cases h
        rw [if_neg fun hbracket => hcloses (by rw [hbracket, Bool.true_or])]
      case isTrue hcloses =>
        split at h
        case h_2 => cases h
        case h_1 o n rest hfirst =>
          rcases Bool.or_eq_true_iff.mp hcloses with hbracket | hparen
          · cases beq_iff_eq.mp hbracket
            by_cases ho : o = '['
            · subst ho
              cases h
              simp [marks, hfirst, ← hq]
            · simp [ho] at h
          · cases beq_iff_eq.mp hparen
            by_cases ho : o = '('
            · subst ho
              cases h
              simp [marks, hfirst]
            · simp [ho] at h

theorem Boundary.step_marks {b t : Boundary} {c : Char} (h : b.step c = .ok t) :
    t.marks = b.marks.step c := by
  simp only [step] at h
  split at h
  case isTrue hq =>
    cases h
    exact quoted_marks hq c
  case isFalse hq =>
    obtain ⟨next, hnext, h⟩ := bind_eq_ok.mp h
    cases h
    obtain ⟨found, hplain, hmarks⟩ := b.plain_eq c
    rw [hplain] at hnext
    have hquoted : found.marks.quoted = false := by
      rw [hmarks]
      simpa [marks] using hq
    exact (mark_marks hquoted hnext).trans (congrArg (Opened.step · c) hmarks)

variable {text : List Char} {offset : Nat}

/-- What a step of the scan for components can do: behind a closed bracket only a dot goes on. -/
inductive Splitter.Moves (text : List Char) (offset : Nat) (s : Splitter) (c : Char) :
    Splitter → Prop where
  | quoted {quoted escaped : Bool} (hq : s.quoted = true)
      (h : s.marks.step c = ⟨quoted, escaped, s.depth⟩) :
    Moves text offset s c { s with position := s.position + c.utf8Size, quoted, escaped }
  | dot {part : String × Option String} (hq : s.quoted = false) (hd : s.depth = 0) (hc : c = '.')
      (hpart : component text s.start s.position s.bracket offset = .ok part) :
    Moves text offset s c { s with position := s.position + c.utf8Size, start := s.position + 1,
                                   bracket := none, closed := false, parts := part :: s.parts }
  | quote (hq : s.quoted = false) (hd : s.depth = 0 → s.closed = false) (hc : c = '"') :
    Moves text offset s c { s with position := s.position + c.utf8Size, quoted := true }
  | opening (hq : s.quoted = false) (hd : s.depth = 0 → s.closed = false) (hc : c = '[') :
    Moves text offset s c { s with position := s.position + c.utf8Size, depth := s.depth + 1,
                                   bracket := if s.depth == 0 then some s.position else s.bracket }
  | closing (hq : s.quoted = false) (hd : s.depth = 0 → s.closed = false) (hc : c = ']') :
    Moves text offset s c { s with position := s.position + c.utf8Size, depth := s.depth - 1,
                                   closed := s.closed || s.depth ≤ 1 }
  | plain (hq : s.quoted = false) (hd : s.depth = 0 → s.closed = false)
      (hc : c ≠ '"' ∧ c ≠ '[' ∧ c ≠ ']') :
    Moves text offset s c { s with position := s.position + c.utf8Size }

theorem Splitter.step_moves {s t : Splitter} {c : Char} (h : step text offset s c = .ok t) :
    Moves text offset s c t := by
  simp only [step] at h
  split at h
  case isTrue hq =>
    repeat' split at h
    all_goals
      cases h
      exact .quoted hq (by simp_all [marks, Opened.step])
  case isFalse hq =>
    rw [Bool.not_eq_true] at hq
    split at h
    case isTrue hdot =>
      simp only [Bool.and_eq_true, beq_iff_eq] at hdot
      obtain ⟨part, hpart, h⟩ := bind_eq_ok.mp h
      cases h
      exact .dot hq hdot.2 hdot.1 hpart
    case isFalse =>
      split at h
      case isTrue => cases h
      case isFalse hclosed =>
        have hd : s.depth = 0 → s.closed = false := by simpa using hclosed
        split at h
        case isTrue hc =>
          cases h
          exact .quote hq hd (by simpa using hc)
        case isFalse hquote =>
          split at h
          case isTrue hc =>
            cases h
            exact .opening hq hd (by simpa using hc)
          case isFalse hopens =>
            split at h
            case isTrue hc =>
              cases h
              exact .closing hq hd (by simpa using hc)
            case isFalse hcloses =>
              cases h
              exact .plain hq hd
                ⟨by simpa using hquote, by simpa using hopens, by simpa using hcloses⟩

theorem Splitter.Moves.marks {s t : Splitter} {c : Char} (h : Moves text offset s c t) :
    t.marks = s.marks.step c := by
  cases h with
  | quoted _ h => exact h.symm
  | dot hq hd hc _ => simp [Splitter.marks, Opened.step, hq, hc]
  | quote hq _ hc => simp [Splitter.marks, Opened.step, hq, hc]
  | opening hq _ hc => simp [Splitter.marks, Opened.step, hq, hc]
  | closing hq _ hc => simp [Splitter.marks, Opened.step, hq, hc]
  | plain hq _ hc => simp [Splitter.marks, Opened.step, hq, hc]

/-- The scan for the leading path and that for components have the same open at every point. -/
theorem scan_marks {cs : List Char} {b b' : Boundary} {s s' : Splitter}
    (hb : cs.foldlM Boundary.step b = .ok b')
    (hs : cs.foldlM (Splitter.step text offset) s = .ok s') (h : s.marks = b.marks) :
    s'.marks = b'.marks := by
  induction cs generalizing b s with
  | nil =>
    cases hb
    cases hs
    exact h
  | cons c cs ih =>
    rw [List.foldlM_cons] at hb hs
    obtain ⟨b₁, hb₁, hb⟩ := bind_eq_ok.mp hb
    obtain ⟨s₁, hs₁, hs⟩ := bind_eq_ok.mp hs
    refine ih hb hs ?_
    rw [(Splitter.step_moves hs₁).marks, Boundary.step_marks hb₁, h]

/-! ### Components as parts of the text -/

/-- Components with a dot behind each. -/
def dotted (parts : List (String × Option String)) : List Char :=
  parts.flatMap fun p => partText p ++ ['.']

theorem joinParts_snoc (ps : List (String × Option String)) (p : String × Option String) :
    joinParts (ps ++ [p]) = dotted ps ++ partText p := by
  induction ps with
  | nil => rfl
  | cons q ps ih =>
    have hcons (rs : List (String × Option String)) (hne : rs ≠ []) :
        joinParts (q :: rs) = partText q ++ '.' :: joinParts rs := by
      cases rs with
      | nil => exact absurd rfl hne
      | cons r rs => rfl
    rw [List.cons_append, hcons _ (by simp), ih]
    simp [dotted]

/-- The characters of the component that is being read, in a text where it is found behind others:
brackets behind its name, closed or not. -/
structure Splitter.Reads (s : Splitter) (before current : List Char) : Prop where
  start : s.start = utf8Length before
  position : s.position = utf8Length (before ++ current)
  closed : s.closed = true → s.depth = 0 ∧ s.quoted = false
  bracket : ∀ opened ∈ s.bracket, ∃ name inside, current = name ++ '[' :: inside ∧
    opened = utf8Length (before ++ name) ∧
      (s.closed = true ∧ (∃ filter, inside = filter ++ [']']) ∨ s.closed = false ∧ s.depth ≠ 0)

/-- Where no bracket is open, what has been read of the component is a name, with closed brackets
behind it or none. -/
theorem Splitter.Reads.part {s : Splitter} {before current : List Char}
    (hs : s.Reads before current) (hd : s.depth = 0) :
    ∃ p : String × Option String, current = partText p ∧ s.bracket = bracketAt before p := by
  cases hb : s.bracket with
  | none => exact ⟨(String.ofList current, none), by simp [partText], rfl⟩
  | some opened =>
    obtain ⟨name, inside, rfl, rfl, ⟨-, filter, rfl⟩ | ⟨-, hopen⟩⟩ := hs.bracket opened hb
    · exact ⟨(String.ofList name, some (String.ofList filter)), by simp [partText],
        by simp [bracketAt]⟩
    · exact absurd hd hopen

theorem Splitter.Reads.component {s : Splitter} {before current rest : List Char}
    {p : String × Option String} (hs : s.Reads before current)
    (htext : text = before ++ (current ++ rest)) (hd : s.depth = 0)
    (h : component text s.start s.position s.bracket offset = .ok p) : partText p = current := by
  obtain ⟨q, rfl, hbracket⟩ := hs.part hd
  rw [htext, hs.start, hs.position, hbracket, component_eq] at h
  obtain ⟨-, h⟩ := guard_eq_ok.mp h
  obtain ⟨-, h⟩ := guard_eq_ok.mp h
  cases h
  rfl

/-- Only a dot goes on behind closed brackets. -/
theorem Splitter.Reads.unclosed {s : Splitter} {before current : List Char}
    (hs : s.Reads before current) (h : s.quoted = true ∨ (s.depth = 0 → s.closed = false)) :
    s.closed = false := by
  by_contra hclosed
  rw [Bool.not_eq_false] at hclosed
  obtain ⟨hdepth, hquoted⟩ := hs.closed hclosed
  rcases h with h | h
  · simp [hquoted] at h
  · simp [hclosed] at h
    exact h hdepth

/-- A step either reads one more character of the component, or ends it with a dot. -/
theorem Splitter.Reads.step {s t : Splitter} {before current rest : List Char} {c : Char}
    (hs : s.Reads before current) (htext : text = before ++ (current ++ c :: rest))
    (h : Moves text offset s c t) :
    t.parts = s.parts ∧ t.Reads before (current ++ [c]) ∨
      ∃ p, partText p = current ∧ c = '.' ∧ t.parts = p :: s.parts ∧
        t.Reads (before ++ (current ++ ['.'])) [] := by
  have hposition : s.position + c.utf8Size = utf8Length (before ++ (current ++ [c])) := by
    simp [hs.position, Nat.add_assoc]
  -- a character goes on with an open filter, and the bracket that closes it is its last
  have hinside {t : Splitter} (hopen : s.closed = false) (hb : t.bracket = s.bracket)
      (hd : s.depth ≠ 0 → t.closed = true ∧ c = ']' ∨ t.closed = false ∧ t.depth ≠ 0) :
      ∀ opened ∈ t.bracket, ∃ name inside, current ++ [c] = name ++ '[' :: inside ∧
        opened = utf8Length (before ++ name) ∧ (t.closed = true ∧
          (∃ filter, inside = filter ++ [']']) ∨ t.closed = false ∧ t.depth ≠ 0) := by
    intro opened hopened
    obtain ⟨name, inside, rfl, hname, ⟨hclosed, -⟩ | ⟨-, hdepth⟩⟩ :=
      hs.bracket opened (hb ▸ hopened)
    · simp [hopen] at hclosed
    · refine ⟨name, inside ++ [c], by simp, hname, (hd hdepth).imp_left ?_⟩
      rintro ⟨hclosed, rfl⟩
      exact ⟨hclosed, inside, rfl⟩
  cases h with
  | dot hq hd hc hpart =>
    subst hc
    have hpoint : '.'.utf8Size = 1 := rfl
    refine .inr ⟨_, hs.component htext hd hpart, rfl, rfl, ?_, ?_, by simp, by simp⟩
    · simp [hs.position, hpoint, Nat.add_assoc]
    · simpa using hposition
  | quoted hq h =>
    have hclosed := hs.unclosed (.inl hq)
    exact .inl ⟨rfl, hs.start, hposition, by simp [hclosed],
      hinside hclosed rfl fun hdepth => .inr ⟨hclosed, hdepth⟩⟩
  | quote hq hd hc =>
    have hclosed := hs.unclosed (.inr hd)
    exact .inl ⟨rfl, hs.start, hposition, by simp [hclosed],
      hinside hclosed rfl fun hdepth => .inr ⟨hclosed, hdepth⟩⟩
  | plain hq hd hc =>
    have hclosed := hs.unclosed (.inr hd)
    exact .inl ⟨rfl, hs.start, hposition, by simp [hclosed],
      hinside hclosed rfl fun hdepth => .inr ⟨hclosed, hdepth⟩⟩
  | opening hq hd hc =>
    have hclosed := hs.unclosed (.inr hd)
    refine .inl ⟨rfl, hs.start, hposition, by simp [hclosed], ?_⟩
    by_cases hdepth : s.depth = 0
    · rintro opened hopened
      simp only [hdepth, beq_self_eq_true, if_true, Option.mem_def, Option.some.injEq] at hopened
      exact ⟨current, [], by simp [hc], by rw [← hopened, hs.position],
        .inr ⟨hclosed, Nat.succ_ne_zero _⟩⟩
    · exact hinside hclosed (by simp [hdepth]) fun _ => .inr ⟨hclosed, Nat.succ_ne_zero _⟩
  | closing hq hd hc =>
    have hclosed := hs.unclosed (.inr hd)
    refine .inl ⟨rfl, hs.start, hposition, ?_, hinside hclosed rfl fun hdepth => ?_⟩
    · simp only [hclosed, Bool.false_or, decide_eq_true_eq]
      exact fun hlast => ⟨by omega, hq⟩
    · by_cases hlast : s.depth ≤ 1
      · exact .inl ⟨by simp [hlast], hc⟩
      · refine .inr ⟨by simp [hclosed, hlast], ?_⟩
        show s.depth - 1 ≠ 0
        omega

theorem scan_parts {cs before current : List Char} {s t : Splitter}
    (h : cs.foldlM (Splitter.step text offset) s = .ok t) (hs : s.Reads before current)
    (hbefore : before = dotted s.parts.reverse) (htext : text = before ++ (current ++ cs)) :
    ∃ last, text = dotted t.parts.reverse ++ last ∧ t.Reads (dotted t.parts.reverse) last := by
  induction cs generalizing before current s with
  | nil =>
    cases h
    rw [List.append_nil] at htext
    exact ⟨current, hbefore ▸ htext, hbefore ▸ hs⟩
  | cons c cs ih =>
    rw [List.foldlM_cons] at h
    obtain ⟨next, hnext, hrest⟩ := bind_eq_ok.mp h
    rcases hs.step htext (Splitter.step_moves hnext) with
      ⟨hparts, hreads⟩ | ⟨p, hp, hc, hparts, hreads⟩
    · exact ih hrest hreads (hparts ▸ hbefore) (by simp [htext])
    · refine ih hrest hreads ?_ (by simp [htext, hc])
      simp [hparts, hbefore, dotted, hp]

/-- Where nothing is open at the end of a text, it is what its components join to. -/
theorem components_eq_ok {parts : List (String × Option String)} {b b' : Boundary}
    (h : components text offset = .ok parts) (hb : b.marks = ⟨false, false, 0⟩)
    (hscan : text.foldlM Boundary.step b = .ok b') (hb' : b'.opened = []) :
    text = joinParts parts := by
  obtain ⟨s, hs, h⟩ := bind_eq_ok.mp h
  obtain ⟨last, hlast, h⟩ := bind_eq_ok.mp h
  cases h
  have hmarks := scan_marks hscan hs hb.symm
  have hdepth : s.depth = 0 := by
    have hbrackets := congrArg Opened.brackets hmarks
    simpa [Boundary.marks, hb', Splitter.marks] using hbrackets
  have hstart : Splitter.Reads ⟨0, 0, false, false, 0, none, false, []⟩ [] [] :=
    ⟨rfl, rfl, by simp, by simp⟩
  obtain ⟨current, htext, hreads⟩ := scan_parts hs hstart rfl rfl
  have hend : text = dotted s.parts.reverse ++ (current ++ []) := by rwa [List.append_nil]
  have hpart := hreads.component hend hdepth hlast
  rw [List.reverse_cons, joinParts_snoc, hpart, ← htext]

/-! ### Where the leading path ends -/

theorem Boundary.step_position {b t : Boundary} {c : Char} (h : b.step c = .ok t) :
    t.position = b.position + c.utf8Size := by
  simp only [Boundary.step] at h
  split at h
  · cases h
    rfl
  · obtain ⟨next, -, h⟩ := bind_eq_ok.mp h
    cases h
    rfl

theorem scan_position {text : List Char} {b t : Boundary}
    (h : text.foldlM Boundary.step b = .ok t) : t.position = b.position + utf8Length text := by
  induction text generalizing b with
  | nil =>
    cases h
    rfl
  | cons c cs ih =>
    rw [List.foldlM_cons] at h
    obtain ⟨next, hnext, h⟩ := bind_eq_ok.mp h
    rw [ih h, Boundary.step_position hnext, utf8Length_cons, Nat.add_assoc]

/-- Where the leading path was found to end, nothing was quoted or open. -/
theorem Boundary.step_found {b t : Boundary} {c : Char} {n : Nat} (h : b.step c = .ok t)
    (hb : b.lead = none) (ht : t.lead = some n) : n = b.position ∧ b.quote = none ∧
      b.opened = [] ∧ (isBlank c || c == '(' || c == '"') = true := by
  simp only [Boundary.step] at h
  split at h
  case isTrue =>
    cases h
    rw [Boundary.quoted_lead, hb] at ht
    cases ht
  case isFalse hquote =>
    obtain ⟨plain, hplain, h⟩ := bind_eq_ok.mp h
    cases h
    have hfound := (Boundary.plain_lead hplain).symm.trans ht
    split at hfound
    case isFalse =>
      rw [hb] at hfound
      cases hfound
    case isTrue hends =>
      simp only [Bool.and_eq_true, Option.isNone_iff_eq_none, List.isEmpty_iff] at hends
      cases hfound
      exact ⟨rfl, by simpa using hquote, hends.1.2, hends.2⟩

theorem scan_lead {text : List Char} {b t : Boundary} {n : Nat}
    (h : text.foldlM Boundary.step b = .ok t) (hb : b.lead = none) (ht : t.lead = some n) :
    ∃ front c back m, text = front ++ c :: back ∧ n = b.position + utf8Length front ∧
      front.foldlM Boundary.step b = .ok m ∧ m.quote = none ∧ m.opened = [] ∧
        (isBlank c || c == '(' || c == '"') = true := by
  induction text generalizing b with
  | nil =>
    cases h
    rw [hb] at ht
    cases ht
  | cons c cs ih =>
    rw [List.foldlM_cons] at h
    obtain ⟨next, hnext, h⟩ := bind_eq_ok.mp h
    cases hlead : next.lead with
    | none =>
      obtain ⟨front, d, back, m, rfl, rfl, hfront, hq, ho, hd⟩ := ih h hlead
      refine ⟨c :: front, d, back, m, rfl, ?_, ?_, hq, ho, hd⟩
      · rw [Boundary.step_position hnext, utf8Length_cons, Nat.add_assoc]
      · rw [scan_cons hnext, hfront]
    | some k =>
      -- the path ends in front of this character
      have hkept := scan_keeps (fun _ _ _ => Boundary.step_lead) hlead h
      rw [ht] at hkept
      cases hkept
      obtain ⟨hn, hq, ho, hc⟩ := Boundary.step_found hnext hb hlead
      exact ⟨[], c, cs, b, rfl, by simp [hn], rfl, hq, ho, hc⟩

/-- Nothing is quoted or open where a leading path ends; a blank, a parenthesis or a quote follows
it, if anything. -/
theorem leadEnd_split {text : List Char} {stop : Nat} (h : leadEnd text = .ok stop) :
    ∃ lead back b, text = lead ++ back ∧ stop = utf8Length lead ∧
      lead.foldlM Boundary.step ⟨0, none, false, [], none⟩ = .ok b ∧ b.opened = [] ∧
        ∀ c ∈ back.head?, (isBlank c || c == '(' || c == '"') = true := by
  obtain ⟨t, ht, h⟩ := bind_eq_ok.mp h
  split at h
  case h_1 => cases h
  case h_2 hquote =>
    split at h
    case h_1 => cases h
    case h_2 hopened =>
      cases h
      cases hfound : t.lead with
      | none =>
        rw [Option.getD_none, scan_position ht, Nat.zero_add]
        exact ⟨text, [], t, by simp, rfl, ht, hopened, by simp⟩
      | some n =>
        obtain ⟨front, c, back, m, rfl, rfl, hfront, hq, ho, hc⟩ := scan_lead ht rfl hfound
        rw [Option.getD_some, Nat.zero_add]
        exact ⟨front, c :: back, m, rfl, rfl, hfront, ho, by simpa using hc⟩

end Expression

end Roster
