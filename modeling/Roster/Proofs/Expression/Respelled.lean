import Roster.Proofs.Expression.Spelling
import Roster.Proofs.Filter.Respelled

/-!
Paths read from texts that differ in the case of letters outside their quotes: the same segments,
but for the case of their names.
-/

namespace Roster

open Filter (folded)

/-! ### Texts of filters -/

theorem toList_respelled_name {s : String} (h : '"' ∉ s.toList) :
    (respelled s).toList = s.toList.map Char.toLower := by
  rw [toList_respelled, foldUnquoted_outside h]

theorem AttributePath.toList_respelled {a : AttributePath} (h : a.WellFormed) :
    a.respelled.toText.toList = a.toText.toList.map Char.toLower := by
  have hname := toList_respelled_name (Filter.not_mem_of_isAttributeName h.name (c := '"') rfl)
  have hdot : '.'.toLower = '.' ∧ ':'.toLower = ':' := by decide
  have hsub : ∀ sub ∈ a.sub, (Roster.respelled sub).toList = sub.toList.map Char.toLower :=
    fun sub hs =>
      toList_respelled_name (Filter.not_mem_of_isAttributeName (h.sub sub hs) (c := '"') rfl)
  have hschema : ∀ urn ∈ a.schema, (Roster.respelled urn).toList = urn.toList.map Char.toLower :=
    fun urn hu => toList_respelled_name (Filter.quote_not_mem_qualified (h.schema urn hu).1)
  obtain ⟨schema, name, sub⟩ := a
  cases schema <;> cases sub <;>
    simp_all [AttributePath.toText, AttributePath.respelled]

namespace Filter

theorem folded_path {a : AttributePath} (h : a.WellFormed) (rest : List Char) :
    folded (a.toText.toList ++ rest) = a.respelled.toText.toList ++ folded rest := by
  have hquote := quote_not_mem_qualified (toText_qualifiedChars h)
  rw [folded, foldUnquoted_append_outside hquote, AttributePath.toList_respelled h]

/-- Whether a character is neither a quote nor a capital letter. -/
def isSmall (c : Char) : Bool :=
  c.toLower == c && c != '"'

/-- Such characters stay. -/
theorem folded_word {word : List Char} (h : word.all isSmall = true) (rest : List Char) :
    folded (word ++ rest) = word ++ folded rest := by
  have hsmall : ∀ c ∈ word, c.toLower = c ∧ c ≠ '"' := by
    simpa [isSmall] using h
  have hquote : '"' ∉ word := fun hmem => (hsmall _ hmem).2 rfl
  have hmap : word.map Char.toLower = word := by
    have hstays : ∀ c ∈ word, c.toLower = id c := fun c hc => (hsmall c hc).1
    rw [List.map_congr_left hstays, List.map_id]
  rw [folded, foldUnquoted_append_outside hquote, hmap]

theorem folded_mark {c : Char} (hc : isLetter c = false) (hquote : c ≠ '"') (rest : List Char) :
    folded (c :: rest) = c :: folded rest :=
  foldUnquoted_mark hc hquote rest

theorem isSmall_word (op : CompareOp) : op.word.toList.all isSmall = true := by
  cases op <;> decide

theorem folded_quoted {cs : List Char} (h : Expression.Quoted cs) (rest : List Char) :
    foldUnquoted .inside (cs ++ '"' :: rest) = cs ++ '"' :: folded rest := by
  induction h with
  | nil => rfl
  | @verbatim c cs hslash hquote _ ih =>
    have hstep : Quoting.inside.step c = .inside := by simp [Quoting.step, hslash, hquote]
    rw [List.cons_append, foldUnquoted_cons, hstep, ih]
    rfl
  | @escape c cs _ ih =>
    have hstays : foldUnquoted .inside ('\\' :: c :: (cs ++ '"' :: rest)) =
        '\\' :: c :: foldUnquoted .inside (cs ++ '"' :: rest) := rfl
    rw [List.cons_append, List.cons_append, hstays, ih]
    rfl

theorem isSmall_number (d : Decimal) : d.toText.toList.all isSmall = true := by
  have hdigits {cs : List Char} (h : cs.all isDigit = true) : cs.all isSmall = true := by
    rw [List.all_eq_true] at h ⊢
    intro c hc
    have hstays := toLower_of_not_isLetter (not_isLetter_of_isDigit (h c hc))
    have hquote := ne_of_isDigit (h c hc) (d := '"') (by decide)
    simp [isSmall, hstays, hquote]
  rw [Decimal.toText_toList, List.all_append, List.all_append, hdigits (all_isDigit_toDigits _),
    Bool.and_true, Bool.and_eq_true]
  constructor
  · split <;> decide
  · split
    · decide
    · rw [List.all_cons, hdigits (all_isDigit_paddedDigits _ _)]
      decide

theorem folded_literal (v : Literal) (rest : List Char) :
    folded (v.toText.toList ++ rest) = v.toText.toList ++ folded rest := by
  cases v with
  | text s =>
    have htext : (Literal.text s).toText.toList ++ rest =
        '"' :: (s.toList.flatMap escapeLiteralChar ++ '"' :: rest) := by
      simp [Literal.toText, quoteLiteral]
    have hquoted := folded_quoted (Expression.quoted_escaped s.toList) rest
    have hinside : folded ('"' :: (s.toList.flatMap escapeLiteralChar ++ '"' :: rest)) =
        '"' :: foldUnquoted .inside (s.toList.flatMap escapeLiteralChar ++ '"' :: rest) := rfl
    rw [htext, hinside, hquoted]
    simp [Literal.toText, quoteLiteral]
  | bool b => cases b <;> exact folded_word (by decide) rest
  | number d => exact folded_word (isSmall_number d) rest
  | null => exact folded_word (by decide) rest

theorem folded_toText {f : Filter} (h : f.WellFormed) (rest : List Char) :
    folded (f.toText.toList ++ rest) = f.respelled.toText.toList ++ folded rest := by
  have hspace (more : List Char) : folded (' ' :: more) = ' ' :: folded more :=
    folded_mark (by decide) (by decide) more
  -- nothing of a printed filter but its names and literals has letters that could be capital
  induction f generalizing rest with
  | compare a op v =>
    rw [respelled, toText_compare, toText_compare, folded_path h.1, hspace,
      folded_word (isSmall_word op), hspace, folded_literal]
  | present a =>
    rw [respelled, toText_present, toText_present, folded_path h, hspace,
      folded_word (by decide)]
  | select a f ih =>
    rw [respelled, toText_select, toText_select, folded_path h.1,
      folded_mark (by decide) (by decide), ih h.2.2, folded_mark (by decide) (by decide)]
  | and f g ihf ihg =>
    rw [respelled, toText_and, toText_and, ihf h.2.2.1, hspace, folded_word (by decide), hspace,
      ihg h.2.2.2]
  | or f g ihf ihg =>
    rw [respelled, toText_or, toText_or, ihf h.2.1, hspace, folded_word (by decide), hspace,
      ihg h.2.2]
  | not f ih =>
    rw [respelled, toText_not, toText_not, folded_word (by decide), hspace,
      folded_mark (by decide) (by decide), ih h, folded_mark (by decide) (by decide)]
  | group f ih =>
    rw [respelled, toText_group, toText_group, folded_mark (by decide) (by decide), ih h,
      folded_mark (by decide) (by decide)]

/-- The text of a filter in small letters is the text of the filter with its names in small
letters. -/
theorem respelled_toText {f : Filter} (h : f.WellFormed) :
    Roster.respelled f.toText = f.respelled.toText := by
  have htext := folded_toText h []
  rw [folded, folded, List.append_nil, foldUnquoted_nil, List.append_nil] at htext
  rw [← String.toList_inj, Roster.toList_respelled, htext]

end Filter

namespace Expression

variable {text : List Char} {offset : Nat} {q : Quoting}

/-! ### The leading path -/

/-- A scan stands where its text leads: inside quotes, behind a backslash there, or outside. -/
structure Opened.At (o : Opened) (q : Quoting) : Prop where
  quoted : o.quoted = decide (q ≠ .outside)
  escaped : o.escaped = decide (q = .escaped)

theorem Opened.At.step {o : Opened} (h : o.At q) (c : Char) : (o.step c).At (q.step c) := by
  obtain ⟨quoted, escaped, brackets⟩ := o
  obtain ⟨hquoted, hescaped⟩ := h
  cases q with
  | outside =>
    obtain rfl : quoted = false := hquoted
    obtain rfl : escaped = false := hescaped
    by_cases hc : c = '"'
    · subst hc
      exact ⟨rfl, rfl⟩
    · simp only [Opened.step, Quoting.step, beq_iff_eq, hc, Bool.false_eq_true, if_false]
      split_ifs <;> exact ⟨rfl, rfl⟩
  | inside =>
    obtain rfl : quoted = true := hquoted
    obtain rfl : escaped = false := hescaped
    by_cases hslash : c = '\\'
    · subst hslash
      exact ⟨rfl, rfl⟩
    · by_cases hc : c = '"'
      · subst hc
        exact ⟨rfl, rfl⟩
      · simp only [Opened.step, Quoting.step, beq_iff_eq, hc, hslash, if_true, if_false,
          Bool.false_eq_true]
        exact ⟨rfl, rfl⟩
  | escaped =>
    obtain rfl : quoted = true := hquoted
    obtain rfl : escaped = true := hescaped
    exact ⟨rfl, rfl⟩

/-- A letter is part of what is read, and changes nothing. -/
theorem Boundary.plain_letter (b : Boundary) {c : Char} (h : isLetter c = true) :
    b.plain c = .ok b := by
  have hblank : isBlank c = false :=
    not_isBlank_of_isQualifiedChar (isQualifiedChar_of_isNameChar (isNameChar_of_isLetter h))
  have hmark := isMark_of_isLetter h
  simp only [isMark, Bool.or_eq_false_iff] at hmark
  simp [Boundary.plain, hblank, hmark]

theorem Boundary.step_fold {b : Boundary} (h : b.marks.At q) (c : Char) :
    b.step (q.fold c) = b.step c := by
  cases hc : isLetter c with
  | false => rw [Quoting.fold_of_not_isLetter hc]
  | true =>
    cases q with
    | outside =>
      have hquote : b.quote.isSome = false := h.quoted
      have hlower : isLetter c.toLower = true := by rwa [isLetter_toLower]
      simp only [Boundary.step, Quoting.fold, hquote, Bool.false_eq_true, if_false,
        b.plain_letter hc, b.plain_letter hlower, utf8Size_toLower]
    | _ => rfl

/-- The scan for the end of the leading path tells no letters apart. -/
theorem scan_folded {cs : List Char} {b : Boundary} (h : b.marks.At q) :
    (foldUnquoted q cs).foldlM Boundary.step b = cs.foldlM Boundary.step b := by
  induction cs generalizing q b with
  | nil => rfl
  | cons c cs ih =>
    rw [foldUnquoted_cons, List.foldlM_cons, List.foldlM_cons, Boundary.step_fold h]
    cases hstep : b.step c with
    | error e => rfl
    | ok t =>
      have hnext : t.marks.At (q.step c) := by
        rw [Boundary.step_marks hstep]
        exact h.step c
      exact ih hnext

theorem at_start : (⟨0, none, false, [], none⟩ : Boundary).marks.At .outside :=
  ⟨rfl, rfl⟩

theorem leadEnd_folded (text : List Char) : leadEnd (folded text) = leadEnd text := by
  rw [leadEnd, scan_folded at_start]
  rfl

/-- A position outside of quotes. -/
def Outside (text : List Char) (n : Nat) : Prop :=
  ∃ front back, text = front ++ back ∧ n = utf8Length front ∧
    Quoting.outside.after front = .outside

theorem outside_start (text : List Char) : Outside text 0 :=
  ⟨[], text, rfl, rfl, rfl⟩

theorem outside_front {front : List Char} (h : '"' ∉ front) (back : List Char) :
    Outside (front ++ back) (utf8Length front) :=
  ⟨front, back, rfl, rfl, Quoting.after_outside h⟩

theorem scan_at {cs : List Char} {b t : Boundary} (hb : b.marks.At q)
    (h : cs.foldlM Boundary.step b = .ok t) : t.marks.At (q.after cs) := by
  induction cs generalizing q b with
  | nil =>
    cases h
    exact hb
  | cons c cs ih =>
    rw [List.foldlM_cons] at h
    obtain ⟨next, hnext, h⟩ := bind_eq_ok.mp h
    refine ih ?_ h
    rw [Boundary.step_marks hnext]
    exact hb.step c

theorem outside_of_scan {front : List Char} {b : Boundary}
    (h : front.foldlM Boundary.step ⟨0, none, false, [], none⟩ = .ok b) (hq : b.quote = none) :
    Quoting.outside.after front = .outside := by
  have hat := (scan_at at_start h).quoted
  have hquote : b.marks.quoted = false := by simp [Boundary.marks, hq]
  rw [hquote] at hat
  simpa using hat.symm

/-- The leading path ends outside of quotes. -/
theorem leadEnd_outside {stop : Nat} (h : leadEnd text = .ok stop) : Outside text stop := by
  obtain ⟨t, ht, h⟩ := bind_eq_ok.mp h
  split at h
  case h_1 => cases h
  case h_2 hquote =>
    split at h
    case h_1 => cases h
    case h_2 =>
      cases h
      cases hfound : t.lead with
      | none =>
        rw [Option.getD_none, scan_position ht]
        exact ⟨text, [], by simp, Nat.zero_add _, outside_of_scan ht hquote⟩
      | some n =>
        obtain ⟨front, c, back, m, rfl, rfl, hfront, hq, -⟩ := scan_lead ht rfl hfound
        exact ⟨front, c :: back, rfl, Nat.zero_add _, outside_of_scan hfront hq⟩

/-! ### Slices -/

theorem takeBytes?_fold (q : Quoting) (cs : List Char) (n : Nat) :
    takeBytes? (foldUnquoted q cs) n = (takeBytes? cs n).map (foldUnquoted q) := by
  induction cs generalizing q n with
  | nil => cases n <;> rfl
  | cons c cs ih =>
    cases n with
    | zero => rfl
    | succ n =>
      simp only [foldUnquoted_cons, takeBytes?, Quoting.fold_eq utf8Size_toLower]
      split
      case isFalse => rfl
      case isTrue =>
        rw [ih, Option.map_map, Option.map_map]
        rfl

/-- What begins outside of quotes is cut in small letters as it is. -/
theorem cut_folded {start : Nat} (h : Outside text start) (stop : Nat) :
    cut (folded text) start stop = (cut text start stop).map folded := by
  obtain ⟨front, back, rfl, rfl, hq⟩ := h
  have hdrop : dropBytes? (folded (front ++ back)) (utf8Length front) = some (folded back) := by
    have hlength := utf8Length_foldUnquoted .outside front
    rw [folded, foldUnquoted_append, hq, ← hlength, dropBytes?_append]
  simp only [cut, slice?, hdrop, dropBytes?_append, Option.bind_some, folded, takeBytes?_fold]
  by_cases hle : utf8Length front ≤ stop
  · rw [if_pos hle, if_pos hle]
    cases takeBytes? back (stop - utf8Length front) <;> rfl
  · rw [if_neg hle, if_neg hle]
    rfl

/-! ### Components -/

/-- A component in small letters. -/
def respelledPart (p : String × Option String) : String × Option String :=
  (respelled p.1, p.2.map respelled)

/-- An error of an expression counts by its type in a modification. -/
abbrev Agrees {α β : Type} (g : α → β) (x : Except ExpressionError α)
    (y : Except ExpressionError β) : Prop :=
  Mirrors ExpressionError.patchType g x y

theorem cut_agrees {start : Nat} (h : Outside text start) (stop : Nat) :
    Agrees folded (cut text start stop) (cut (folded text) start stop) := by
  rw [cut_folded h]
  cases cut text start stop with
  | ok part => exact .ok part
  | error e => exact .error rfl

theorem component_folded {start stop : Nat} {bracket : Option Nat} (hs : Outside text start)
    (hb : ∀ opened ∈ bracket, Outside text (opened + 1)) :
    Agrees respelledPart (component text start stop bracket offset)
      (component (folded text) start stop bracket offset) := by
  have hchecked (name : List Char) (filter : Option String) :
      Agrees respelledPart
        (if name.isEmpty then .error (malformed .emptySegment (offset + start))
          else if !isAttributeName name then
            .error (malformed (.segmentName (String.ofList name)) (offset + start))
          else .ok (String.ofList name, filter))
        (if (folded name).isEmpty then .error (malformed .emptySegment (offset + start))
          else if !isAttributeName (folded name) then
            .error (malformed (.segmentName (String.ofList (folded name))) (offset + start))
          else .ok (String.ofList (folded name), filter.map respelled)) := by
    have hempty : (folded name).isEmpty = name.isEmpty := by
      rw [Bool.eq_iff_iff, List.isEmpty_iff, List.isEmpty_iff]
      exact foldUnquoted_eq_nil
    rw [hempty, folded, isAttributeName_foldUnquoted]
    split
    case isTrue => exact .error rfl
    case isFalse =>
      split
      case isTrue => exact .error rfl
      case isFalse => exact .of_ok (Prod.ext (respelled_ofList name) rfl)
  cases bracket with
  | none =>
    simp only [component, pure_bind]
    exact (cut_agrees hs stop).bind fun name _ => hchecked name none
  | some opened =>
    simp only [component, pure_bind]
    refine (cut_agrees hs opened).bind fun name _ => ?_
    refine (cut_agrees (hb opened rfl) (stop - 1)).bind fun filter _ => ?_
    have hfilter := hchecked name (some (String.ofList filter))
    rwa [Option.map_some, respelled_ofList] at hfilter

/-- The state of a scan with the components so far in small letters. -/
def Splitter.respelled (s : Splitter) : Splitter :=
  { s with parts := s.parts.map respelledPart }

/-- The positions that a scan for components keeps lie outside of quotes. -/
structure Splitter.Follows (text : List Char) (s : Splitter) (front back : List Char)
    (q : Quoting) : Prop where
  split : text = front ++ back
  position : s.position = utf8Length front
  after : Quoting.outside.after front = q
  marks : s.marks.At q
  start : Outside text s.start
  bracket : ∀ opened ∈ s.bracket, Outside text (opened + 1)

theorem Splitter.Follows.outside {s : Splitter} {front back : List Char} {c : Char}
    (h : s.Follows text front (c :: back) .outside) (hc : c ≠ '"') (hone : c.utf8Size = 1) :
    Outside text (s.position + 1) := by
  refine ⟨front ++ [c], back, by simp [h.split], ?_, ?_⟩
  · simp [h.position, hone]
  · rw [Quoting.after_append, h.after]
    simp [Quoting.after, Quoting.step, hc]

theorem Splitter.Follows.step {s t : Splitter} {front back : List Char} {c : Char}
    (h : s.Follows text front (c :: back) q) (hm : Moves text offset s c t) :
    t.Follows text (front ++ [c]) back (q.step c) := by
  have htext : text = front ++ [c] ++ back := by simp [h.split]
  have hposition : s.position + c.utf8Size = utf8Length (front ++ [c]) := by simp [h.position]
  have hafter : Quoting.outside.after (front ++ [c]) = q.step c := by
    rw [Quoting.after_append, h.after]
    rfl
  have hmarks : t.marks.At (q.step c) := hm.marks ▸ h.marks.step c
  -- only outside of quotes do a dot and a bracket have their meaning
  have hplain (hq : s.quoted = false) : q = .outside := by
    have hquoted : s.quoted = decide (q ≠ .outside) := h.marks.quoted
    simpa [hq] using hquoted
  cases hm with
  | quoted => exact ⟨htext, hposition, hafter, hmarks, h.start, h.bracket⟩
  | quote => exact ⟨htext, hposition, hafter, hmarks, h.start, h.bracket⟩
  | closing => exact ⟨htext, hposition, hafter, hmarks, h.start, h.bracket⟩
  | plain => exact ⟨htext, hposition, hafter, hmarks, h.start, h.bracket⟩
  | dot hq _ hc _ =>
    cases hplain hq
    subst hc
    exact ⟨htext, hposition, hafter, hmarks, h.outside (by decide) rfl, by simp⟩
  | opening hq _ hc =>
    cases hplain hq
    subst hc
    refine ⟨htext, hposition, hafter, hmarks, h.start, ?_⟩
    dsimp only
    split
    case isTrue =>
      rintro opened ⟨⟩
      exact h.outside (by decide) rfl
    case isFalse => exact h.bracket

/-- Outside quotes a letter is part of a component, unless brackets have closed that. -/
theorem Splitter.step_letter {s : Splitter} {c : Char} (hq : s.quoted = false)
    (hc : isLetter c = true) : Splitter.step text offset s c =
      if s.depth == 0 && s.closed then .error (malformed (.afterSelection c) (offset + s.position))
      else .ok { s with position := s.position + c.utf8Size } := by
  have hdot : c ≠ '.' := by
    rintro rfl
    exact absurd hc (by decide)
  have hmark := isMark_of_isLetter hc
  simp only [isMark, Bool.or_eq_false_iff, beq_eq_false_iff_ne] at hmark
  by_cases hclosed : (s.depth == 0 && s.closed) = true
  · rw [if_pos hclosed]
    simp [Splitter.step, hq, hdot, hclosed, bind, Except.bind]
  · rw [if_neg hclosed]
    simp [Splitter.step, hq, hdot, hmark, hclosed, bind, Except.bind]

/-- The dot behind a component is the one place where the scan looks at the text. -/
theorem Splitter.step_text {s : Splitter} (hs : Outside text s.start)
    (hb : ∀ opened ∈ s.bracket, Outside text (opened + 1)) (c : Char) :
    Agrees Splitter.respelled (Splitter.step text offset s c)
      (Splitter.step (folded text) offset s.respelled c) := by
  have hpart : Agrees respelledPart (component text s.start s.position s.bracket offset)
      (component (folded text) s.start s.position s.bracket offset) := component_folded hs hb
  unfold Splitter.step
  refine .test (fun _ => ?_) fun _ => ?_
  · refine .test (fun _ => .ok _) fun _ => ?_
    refine .test (fun _ => .ok _) fun _ => ?_
    exact .test (fun _ => .ok _) fun _ => .ok _
  · refine .test (fun _ => hpart.bind fun _ _ => .ok _) fun _ => ?_
    refine .test (fun _ => .error rfl) fun _ => ?_
    refine .test (fun _ => .ok _) fun _ => ?_
    refine .test (fun _ => .ok _) fun _ => ?_
    exact .test (fun _ => .ok _) fun _ => .ok _

theorem Splitter.step_folded {s : Splitter} {front back : List Char} {c : Char}
    (h : s.Follows text front (c :: back) q) :
    Agrees Splitter.respelled (Splitter.step text offset s c)
      (Splitter.step (folded text) offset s.respelled (q.fold c)) := by
  cases hc : isLetter c with
  | false =>
    rw [Quoting.fold_of_not_isLetter hc]
    exact Splitter.step_text h.start h.bracket c
  | true =>
    cases q with
    | outside =>
      have hquoted : s.quoted = false := h.marks.quoted
      have hlower : isLetter c.toLower = true := by rwa [isLetter_toLower]
      have hstep : Splitter.step (folded text) offset s.respelled c.toLower = _ :=
        Splitter.step_letter hquoted hlower
      rw [utf8Size_toLower] at hstep
      rw [Splitter.step_letter hquoted hc, Quoting.fold, hstep]
      exact .test (fun _ => .error rfl) fun _ => .ok _
    | _ => exact Splitter.step_text h.start h.bracket c

variable (offset) in
/-- The scan for components finds them where it finds those of the text in small letters. -/
theorem scan_components {s : Splitter} {front back : List Char}
    (h : s.Follows text front back q) :
    Agrees Splitter.respelled (back.foldlM (Splitter.step text offset) s)
        ((foldUnquoted q back).foldlM (Splitter.step (folded text) offset) s.respelled) ∧
      ∀ t, back.foldlM (Splitter.step text offset) s = .ok t →
        ∃ end', t.Follows text end' [] (q.after back) := by
  induction back generalizing s front q with
  | nil =>
    refine ⟨.ok s, ?_⟩
    rintro t ⟨⟩
    exact ⟨front, h⟩
  | cons c back ih =>
    -- the places that the scan keeps are found again in the text in small letters at each step
    simp only [foldUnquoted_cons, List.foldlM_cons]
    constructor
    · refine (Splitter.step_folded h).bind fun t ht => ?_
      exact (ih (h.step (Splitter.step_moves ht))).1
    · intro t ht
      obtain ⟨next, hnext, ht⟩ := bind_eq_ok.mp ht
      exact (ih (h.step (Splitter.step_moves hnext))).2 t ht

theorem components_folded (text : List Char) (offset : Nat) :
    Agrees (List.map respelledPart) (components text offset)
      (components (folded text) offset) := by
  have hstart : Splitter.Follows text ⟨0, 0, false, false, 0, none, false, []⟩ [] text .outside :=
    ⟨rfl, rfl, rfl, ⟨rfl, rfl⟩, outside_start text, by simp⟩
  obtain ⟨hscan, hend⟩ := scan_components offset hstart
  refine hscan.bind fun s hs => ?_
  obtain ⟨_, hfollows⟩ := hend s hs
  refine (component_folded hfollows.start hfollows.bracket).bind fun last _ => ?_
  exact .of_ok (by simp [Splitter.respelled])

/-! ### Schemas -/

theorem positionsOf_folded {p : Char → Bool} (hp : ∀ c, p c.toLower = p c) (q : Quoting)
    (cs : List Char) (n : Nat) : positionsOf p (foldUnquoted q cs) n = positionsOf p cs n := by
  induction cs generalizing q n with
  | nil => rfl
  | cons c cs ih =>
    simp only [foldUnquoted_cons, positionsOf, Quoting.fold_eq hp, Quoting.fold_eq utf8Size_toLower,
      ih]

theorem schemaPart_folded (text : List Char) :
    schemaPart (folded text) = folded (schemaPart text) :=
  takeWhile_foldUnquoted
    (fun c => by simp only [bne, beq_toLower (show isLetter '[' = false by decide)]) .outside text

theorem isKnownExtension_congr (r : Registry) {a b : String} (h : sameName a b = true) :
    r.isKnownExtension a = r.isKnownExtension b := by
  have hp : (fun e : Extension => sameName e.schema.id a) = fun e => sameName e.schema.id b := by
    funext e
    rw [Bool.eq_iff_iff, sameName_iff, sameName_iff, sameName_iff.mp h]
  rw [Registry.isKnownExtension, Registry.isKnownExtension, hp]

variable {r : Registry}

theorem dropColon_folded (cs : List Char) : dropColon (folded cs) = folded (dropColon cs) := by
  cases cs with
  | nil => rfl
  | cons c cs =>
    by_cases hc : c = ':'
    · subst hc
      rfl
    · have hfold : Quoting.outside.fold c ≠ ':' := fun h => hc (eq_of_toLower_eq h (by decide))
      have hstays : dropColon (c :: cs) = c :: cs := by simp [dropColon, hc]
      rw [hstays, folded, foldUnquoted_cons]
      simp [dropColon, hfold]

/-- What a schema has been found to be, and the text behind it, in small letters. -/
abbrev respelledSchema : Option String × List Char → Option String × List Char :=
  Prod.map (Option.map respelled) folded

theorem splitAtSchema_folded (head : List Char) {stops : List Nat}
    (h : ∀ stop ∈ stops, Outside text stop) :
    Agrees respelledSchema (splitAtSchema r text head stops)
      (splitAtSchema r (folded text) (folded head) stops) := by
  induction stops with
  | nil => exact .error rfl
  | cons stop stops ih =>
    obtain ⟨front, back, rfl, rfl, hq⟩ := h stop List.mem_cons_self
    have hsplit : folded (front ++ back) = folded front ++ folded back := by
      rw [folded, foldUnquoted_append, hq]
    have hname := sameName_respelled (String.ofList front)
    rw [respelled_ofList] at hname
    have hlength : utf8Length (folded front) = utf8Length front := utf8Length_foldUnquoted ..
    have hfolded : splitAtSchema r (folded (front ++ back)) (folded head)
        (utf8Length (folded front) :: stops) = _ := splitAtSchema_cons hsplit
    rw [hlength, isKnownExtension_congr r hname, isCoreSchema_sameName hname,
      dropColon_folded] at hfolded
    rw [splitAtSchema_cons rfl, hfolded]
    refine .test (fun _ => ?_) fun _ => ?_
    · exact .of_ok (by simp [respelledSchema, respelled_ofList])
    · refine .test (fun _ => .ok (none, dropColon back)) fun _ => ?_
      exact ih fun s hs => h s (List.mem_cons_of_mem _ hs)

theorem schemaOf_folded (h : '"' ∉ schemaPart text) :
    Agrees respelledSchema (schemaOf r text) (schemaOf r (folded text)) := by
  obtain ⟨back, htext, -⟩ := schemaPart_prefix text
  rw [schemaOf_eq, schemaOf_eq, schemaPart_folded, folded, utf8Length_foldUnquoted,
    positionsOf_folded (p := fun c => c == ':') (beq_toLower (by decide))]
  refine splitAtSchema_folded (schemaPart text) fun stop hstop => ?_
  rcases List.mem_cons.mp hstop with rfl | hstop
  · have hout := outside_front h back
    rwa [← htext] at hout
  · obtain ⟨front, c, more, hpart, -, rfl⟩ := mem_positionsOf (List.mem_reverse.mp hstop)
    rw [hpart, List.mem_append, not_or] at h
    have hout := outside_front h.1 (c :: more ++ back)
    rw [← List.append_assoc, ← hpart, ← htext] at hout
    rwa [Nat.zero_add]

/-! ### Segments -/

end Expression

/-- The segment with its names in small letters. -/
def Segment.respelled : Segment → Segment
  | .name n => .name (Roster.respelled n)
  | .selection n f => .selection (Roster.respelled n) (Roster.respelled f)
  | .test f => .test (Roster.respelled f)

namespace Expression

variable {r : Registry} {text : List Char}

theorem normalizeFilter_folded (text : List Char) :
    Agrees respelled (normalizeFilter text) (normalizeFilter (folded text)) := by
  have hparse := Filter.parse_respelled (String.ofList text)
  rw [respelled_ofList] at hparse
  simp only [normalizeFilter]
  rcases hparse.outcomes with ⟨e, e', he, he', -⟩ | ⟨f, hf, hf'⟩
  · rw [he, he']
    exact .error rfl
  · rw [hf, hf']
    refine .of_ok ?_
    rw [Filter.respelled_toText (Filter.parse_wellFormed hf).bracketed, Filter.respelled_bracketed]

theorem segmentsOf_folded (parts : List (String × Option String)) :
    Agrees (List.map Segment.respelled) (segmentsOf parts)
      (segmentsOf (parts.map respelledPart)) := by
  induction parts with
  | nil => exact .ok []
  | cons p parts ih =>
    obtain ⟨name, filter⟩ := p
    cases filter with
    | none =>
      simp only [segmentsOf, List.map_cons, respelledPart, Option.map_none]
      refine Mirrors.bind (g := Segment.respelled) (.ok _) fun s _ => ?_
      exact ih.bind fun segments _ => .ok (s :: segments)
    | some filter =>
      simp only [segmentsOf, List.map_cons, respelledPart, Option.map_some, toList_respelled]
      refine Mirrors.bind (g := Segment.respelled) ?_ fun s _ => ?_
      · exact (normalizeFilter_folded filter.toList).map fun _ _ => rfl
      · exact ih.bind fun segments _ => .ok (s :: segments)

theorem unwrapped?_folded (text : List Char) :
    unwrapped? (folded text) = (unwrapped? text).map folded := by
  cases text with
  | nil => rfl
  | cons c cs =>
    by_cases hc : c = '['
    · subst hc
      have hfold : folded ('[' :: cs) = '[' :: folded cs := rfl
      rw [hfold]
      simp only [unwrapped?, folded, getLast?_foldUnquoted (show isLetter ']' = false by decide),
        dropLast_foldUnquoted]
      split <;> rfl
    · have hfold : Quoting.outside.fold c ≠ '[' := fun h => hc (eq_of_toLower_eq h (by decide))
      have hnone : unwrapped? (c :: cs) = none := unwrapped?_eq_none (by simpa using hc)
      have hnone' : unwrapped? (folded (c :: cs)) = none :=
        unwrapped?_eq_none (by simpa [folded, foldUnquoted_cons] using hfold)
      rw [hnone, hnone']
      rfl

theorem isEmpty_folded (text : List Char) : (folded text).isEmpty = text.isEmpty := by
  rw [Bool.eq_iff_iff, List.isEmpty_iff, List.isEmpty_iff]
  exact foldUnquoted_eq_nil

theorem attributePath_folded (h : '"' ∉ schemaPart text) :
    Agrees (List.map Segment.respelled) (attributePath r text)
      (attributePath r (folded text)) := by
  have hsegments (rest : List Char) (offset : Nat) :
      Agrees (List.map Segment.respelled)
        (components rest offset >>= segmentsOf)
        (components (folded rest) offset >>= segmentsOf) :=
    (components_folded rest offset).bind fun parts _ => segmentsOf_folded parts
  have hbegins : beginsWith "urn:".toList (folded text) = beginsWith "urn:".toList text :=
    beginsWith_foldUnquoted ..
  simp only [attributePath, unwrapped?_folded, hbegins]
  cases unwrapped? text with
  | some inner => exact (normalizeFilter_folded inner).map fun _ _ => rfl
  | none =>
    refine .test (fun _ => ?_) fun _ => hsegments text 0
    refine (schemaOf_folded h).bind ?_
    rintro ⟨extension, rest⟩ -
    simp only [Prod.map_apply, isEmpty_folded, Option.isSome_map, folded, utf8Length_foldUnquoted]
    have hfront : ((extension.map respelled).map Segment.name).toList =
        (extension.map Segment.name).toList.map Segment.respelled := by
      cases extension <;> rfl
    refine .test (fun _ => .test (fun _ => ?_) fun _ => .error rfl) fun _ => ?_
    · exact .of_ok hfront.symm
    · refine (components_folded rest _).bind fun parts _ => ?_
      refine (segmentsOf_folded parts).bind fun segments _ => ?_
      exact .of_ok (by rw [List.map_append, hfront])

/-! ### Expressions -/

theorem attached_respelled (front : List Segment) (text : String) :
    attached (front.map Segment.respelled) (respelled text) =
      (attached front text).map Segment.respelled := by
  simp only [attached, ← List.map_reverse]
  cases front.reverse with
  | nil => simp [Segment.respelled]
  | cons s rest =>
    cases s with
    | name owner =>
      simp only [List.map_cons, Segment.respelled, isUrn_congr (sameName_respelled owner)]
      split <;> simp [Segment.respelled]
    | selection name filter => simp [Segment.respelled]
    | test filter => simp [Segment.respelled]

theorem testPath?_respelled (f : Filter) :
    f.respelled.testPath? = f.testPath?.map AttributePath.respelled := by
  cases f <;> rfl

/-- What is attached to a path is attached in small letters to the path in small letters. -/
theorem attach?_folded {segments : List Segment} {rest : List Char}
    (hnames : ∀ name, Segment.name name ∈ segments → isUrn name = true ∨ '"' ∉ name.toList) :
    attach? (segments.map Segment.respelled) (folded rest) =
      (attach? segments rest).map (List.map Segment.respelled) := by
  rcases List.eq_nil_or_concat segments with rfl | ⟨front, s, rfl⟩
  · rfl
  rw [List.concat_eq_append] at hnames ⊢
  rw [List.map_append, List.map_singleton]
  cases s with
  | selection name filter => simp [attach?, Segment.respelled]
  | test filter => simp [attach?, Segment.respelled]
  | name last =>
    have hurn : isUrn (respelled last) = isUrn last := isUrn_congr (sameName_respelled last)
    cases hlast : isUrn last with
    | true => simp [attach?, Segment.respelled, hurn, hlast]
    | false =>
      have hquote : '"' ∉ last.toList := by simpa [hlast] using hnames last (by simp)
      -- the last name has no quote, so that what is behind it is still outside of quotes
      have htext : respelled (last ++ " " ++ String.ofList rest) =
          respelled last ++ " " ++ String.ofList (folded rest) := by
        rw [← String.toList_inj]
        simp only [toList_respelled, String.toList_append, String.toList_ofList,
          List.append_assoc]
        rw [foldUnquoted_append_outside hquote, foldUnquoted_outside hquote]
        rfl
      have hparse := Filter.parse_respelled (last ++ " " ++ String.ofList rest)
      rw [htext] at hparse
      rcases hparse.outcomes with ⟨e, e', he, he', -⟩ | ⟨f, hf, hf'⟩
      · simp [attach?, Segment.respelled, hurn, hlast, he, he']
      · rw [Segment.respelled, attach?_read _ (hurn.trans hlast) hf', attach?_read _ hlast hf,
          testPath?_respelled, Option.map_map, Option.map_map,
          ← Filter.respelled_toText (Filter.parse_wellFormed hf)]
        simp only [attached_respelled]
        rfl

theorem generalFilter_folded (text : List Char) :
    Agrees (List.map Segment.respelled) (generalFilter text) (generalFilter (folded text)) :=
  (normalizeFilter_folded text).map fun _ _ => rfl

/-- The name of a segment of a path is a URN or has no quotes. -/
theorem pathSegments_name {ext : Option String} {ps : List (String × Option String)}
    (h : IsPath r ext ps) {name : String} (hname : Segment.name name ∈ pathSegments ext ps) :
    isUrn name = true ∨ '"' ∉ name.toList := by
  rw [pathSegments, List.mem_append, Option.mem_toList] at hname
  rcases hname with hname | hname
  · obtain ⟨urn, hurn, heq⟩ := Option.map_eq_some_iff.mp hname
    cases heq
    exact .inl (h.extension name hurn).scheme
  · obtain ⟨⟨other, filter⟩, hp, heq⟩ := List.mem_map.mp hname
    cases filter <;> cases heq
    exact .inr (Filter.not_mem_of_isAttributeName (h.components _ hp).name rfl)

theorem quote_not_mem_schemaPart {lead : List Char}
    (h : (schemaPart lead).all isLeadChar = true) : '"' ∉ schemaPart lead :=
  fun hmem => absurd (List.all_eq_true.mp h _ hmem) (by decide)

theorem parseTrimmed_folded (text : List Char) :
    Agrees (List.map Segment.respelled) (parseTrimmed r text) (parseTrimmed r (folded text)) := by
  have hstop : Agrees id (leadEnd text) (leadEnd text) := .refl _
  rw [parseTrimmed, parseTrimmed, leadEnd_folded, folded, utf8Length_foldUnquoted]
  refine hstop.bind fun stop hstop => ?_
  refine (cut_agrees (outside_start text) stop).bind fun lead hlead => ?_
  refine (cut_agrees (leadEnd_outside hstop) (utf8Length text)).bind fun rest _ => ?_
  have hletters := leadEnd_lead hstop hlead
  have hpath := attributePath_folded (r := r) (quote_not_mem_schemaPart hletters)
  simp only [trimBlanks_foldUnquoted, isEmpty_folded, folded,
    head?_foldUnquoted (show isLetter '[' = false by decide),
    getLast?_foldUnquoted (show isLetter ']' = false by decide)]
  generalize trimBlanks rest = rest
  refine .test (fun _ => generalFilter_folded text) fun hstart => ?_
  refine .test (fun _ => hpath) fun hrest => ?_
  refine .test (fun _ => generalFilter_folded text) fun _ => ?_
  refine hpath.bind fun segments hsegments => ?_
  -- brackets around the whole path have been ruled out, so that its segments are plain or a URN
  have hnames : ∀ name, Segment.name name ∈ segments → isUrn name = true ∨ '"' ∉ name.toList := by
    have hwrap : unwrapped? lead = none :=
      unwrapped?_eq_none fun hbracket => hstart (by simp [hbracket, hrest])
    obtain ⟨ext, ps, hps, rfl⟩ := attributePath_eq_ok hletters hwrap hsegments
    exact fun name hname => pathSegments_name hps hname
  rw [attach?_folded hnames]
  cases attach? segments rest with
  | some attached => exact .ok attached
  | none => exact generalFilter_folded text

end Expression

/-- The expression with its names in small letters. -/
def Expression.respelled (e : Expression) : Expression :=
  ⟨e.segments.map Segment.respelled⟩

/-- A text in small letters outside its quotes is read as the expression with its names in small
letters, or refused as the text is. -/
theorem Expression.parse_respelled (r : Registry) (text : String) :
    Agrees Expression.respelled (parse r text) (parse r (Roster.respelled text)) := by
  simp only [parse, toList_respelled, trimBlanks_foldUnquoted, utf8Length_foldUnquoted,
    isEmpty_folded]
  refine .test (fun _ => .error rfl) fun _ => .test (fun _ => .error rfl) fun _ => ?_
  exact (parseTrimmed_folded (trimBlanks text.toList)).map fun _ _ => rfl

end Roster
