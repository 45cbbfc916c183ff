import Roster.Proofs.Expression.Scans

/-!
No slice of an expression fails: what is cut out as a component, with or without brackets, lies in
the text that was split.
-/

namespace Roster

namespace Expression

/-! ### The components that are asked for -/

/-- The calls of `component` when a text is split: where a dot is met outside quotes and brackets,
and at the end. -/
inductive Asked (text : List Char) (offset : Nat) : Nat → Nat → Option Nat → Prop where
  | dot {front back : List Char} {s : Splitter} (htext : text = front ++ '.' :: back)
      (h : front.foldlM (Splitter.step text offset) (.fresh [] []) = .ok s)
      (hq : s.quoted = false) (hd : s.depth = 0) : Asked text offset s.start s.position s.bracket
  | last {s : Splitter} (h : text.foldlM (Splitter.step text offset) (.fresh [] []) = .ok s) :
    Asked text offset s.start s.position s.bracket

/-- A text that the scan for the leading path reads through with nothing quoted or open at either
end. -/
def Closed (text : List Char) : Prop :=
  ∃ b b' : Boundary, b.quote = none ∧ b.escaped = false ∧ b.opened = [] ∧
    text.foldlM Boundary.step b = .ok b' ∧ b'.opened = []

/-- A component lies between two positions of a text, its brackets where they are said to open. -/
structure Lies (text : List Char) (p : String × Option String) (start stop : Nat)
    (bracket : Option Nat) : Prop where
  split : ∃ before after, text = before ++ (partText p ++ after) ∧ start = utf8Length before ∧
    stop = utf8Length (before ++ partText p) ∧ bracket = bracketAt before p
  balanced : ∀ filter ∈ p.2, Balanced filter.toList

variable {text : List Char} {offset start stop : Nat} {bracket : Option Nat}

theorem Agree.lies {s : Splitter} {b : Boundary} {before current rest : List Char}
    (h : Agree s b before current) (htext : text = before ++ (current ++ rest))
    (hd : s.depth = 0) : ∃ p, Lies text p s.start s.position s.bracket := by
  cases hbracket : s.bracket with
  | none =>
    refine ⟨(String.ofList current, none), ⟨before, rest, ?_, h.reads.start, ?_, rfl⟩, by simp⟩
    · simpa [partText] using htext
    · simpa [partText] using h.reads.position
  | some opened =>
    obtain ⟨name, inside, rfl, rfl, ⟨-, filter, rfl, hbalanced⟩ | ⟨-, n, marks, -, habove⟩⟩ :=
      h.nested opened hbracket
    · refine ⟨(String.ofList name, some (String.ofList filter)),
        ⟨before, rest, ?_, h.reads.start, ?_, ?_⟩, by simpa using hbalanced⟩
      · simpa [partText] using htext
      · simpa [partText] using h.reads.position
      · simp [bracketAt]
    · exact absurd (h.depth.symm.trans hd) habove.brackets_pos

/-- What is asked for is a component of the text. -/
theorem Asked.lies (h : Asked text offset start stop bracket) (htext : Closed text) :
    ∃ p, Lies text p start stop bracket := by
  obtain ⟨b, b', hq, he, ho, hscan, hb'⟩ := htext
  have hstart := Agree.start hq he ho
  cases h with
  | @dot front back s htext h _ hd =>
    rw [htext, List.foldlM_append] at hscan
    obtain ⟨m, hfront, -⟩ := bind_eq_ok.mp hscan
    obtain ⟨before, current, hsplit, hagree⟩ := hstart.run (by simpa using htext) h hfront
    exact hagree.lies hsplit hd
  | @last s h =>
    obtain ⟨before, current, hsplit, hagree⟩ :=
      hstart.run (by simp : text = [] ++ ([] ++ (text ++ []))) h hscan
    refine hagree.lies hsplit ?_
    simp [hagree.depth, Boundary.brackets, hb']

/-! ### The texts that are split -/

/-- The texts that reading may split at their dots: the leading path, and what stands behind the
schema of one, found at an offset. -/
inductive SplitText (r : Registry) (text : List Char) : List Char → Nat → Prop where
  | lead {lead : List Char} {stop : Nat} (hstop : leadEnd text = .ok stop)
      (hlead : cut text 0 stop = .ok lead) : SplitText r text lead 0
  | behind {lead rest : List Char} {stop : Nat} {ext : Option String}
      (hstop : leadEnd text = .ok stop) (hlead : cut text 0 stop = .ok lead)
      (hschema : schemaOf r lead = .ok (ext, rest)) :
    SplitText r text rest (utf8Length lead - utf8Length rest)

theorem lead_closed {lead : List Char} (hstop : leadEnd text = .ok stop)
    (hlead : cut text 0 stop = .ok lead) : Closed lead := by
  obtain ⟨front, back, b, rfl, rfl, hscan, ho, -⟩ := leadEnd_split hstop
  rw [cut_front] at hlead
  cases hlead
  exact ⟨_, b, rfl, rfl, rfl, hscan, ho⟩

/-- A schema has no quotes and no brackets in it, so that nothing is open behind it. -/
theorem Closed.behind {r : Registry} {lead rest : List Char} {ext : Option String}
    (h : Closed lead) (hlead : (schemaPart lead).all isLeadChar = true)
    (hschema : schemaOf r lead = .ok (ext, rest)) : Closed rest := by
  obtain ⟨b, b', hq, he, ho, hscan, hb'⟩ := h
  obtain ⟨front, back, hcandidate, htext, rfl, -⟩ := schemaOf_eq_ok hschema
  have hfront : front.all isLeadChar = true :=
    List.all_eq_true.mpr fun c hc => List.all_eq_true.mp hlead c (hcandidate.subset hc)
  obtain ⟨urn, hurn, hsplit⟩ : ∃ urn : List Char, urn.all isLeadChar = true ∧
      lead = urn ++ dropColon back := by
    by_cases hcolon : ∃ more, back = ':' :: more
    · obtain ⟨more, rfl⟩ := hcolon
      exact ⟨front ++ [':'], by simpa [hfront] using (by decide : isLeadChar ':' = true),
        by simpa [dropColon] using htext⟩
    · refine ⟨front, hfront, ?_⟩
      rw [dropColon]
      · exact htext
      · exact fun more hmore => hcolon ⟨more, hmore⟩
  rw [hsplit, scan_append ((Solid.ofLead hurn).scan_boundary hq he)] at hscan
  exact ⟨b.shifted urn, b', hq, he, ho, hscan, hb'⟩

theorem SplitText.closed {r : Registry} {part : List Char} (h : SplitText r text part offset) :
    Closed part := by
  cases h with
  | lead hstop hlead => exact lead_closed hstop hlead
  | behind hstop hlead hschema =>
    exact (lead_closed hstop hlead).behind (leadEnd_lead hstop hlead) hschema

/-! ### Slices -/

/-- No slice failed. -/
def InBounds {α : Type} (x : Except ExpressionError α) : Prop :=
  ∀ start stop, x ≠ .error (.brokenSlice start stop)

theorem InBounds.ok {α : Type} (a : α) : InBounds (.ok a) :=
  fun _ _ h => nomatch h

theorem InBounds.malformed {α : Type} (cause : Malformed) (position : Nat) :
    InBounds (.error (malformed cause position) : Except ExpressionError α) :=
  fun _ _ h => nomatch h

theorem InBounds.bind {α β : Type} {x : Except ExpressionError α}
    {f : α → Except ExpressionError β} (h : InBounds x) (hf : ∀ a, x = .ok a → InBounds (f a)) :
    InBounds (x >>= f) := by
  cases x with
  | ok a => exact hf a rfl
  | error e =>
    rintro start stop ⟨⟩
    exact h start stop rfl

theorem InBounds.map {α β : Type} {x : Except ExpressionError α} (h : InBounds x) (f : α → β) :
    InBounds (x.map f) := by
  cases x with
  | ok a => exact .ok (f a)
  | error e =>
    rintro start stop ⟨⟩
    exact h start stop rfl

theorem plain_inBounds (b : Boundary) (c : Char) : InBounds (b.plain c) := by
  simp only [Boundary.plain]
  repeat' split
  all_goals first | exact .ok _ | exact .malformed _ _

theorem leadEnd_inBounds (text : List Char) : InBounds (leadEnd text) := by
  have hscan (b : Boundary) : InBounds (text.foldlM Boundary.step b) := by
    induction text generalizing b with
    | nil => exact .ok b
    | cons c cs ih =>
      rw [List.foldlM_cons]
      refine .bind ?_ fun _ _ => ih _
      dsimp only [Boundary.step]
      split
      · exact .bind (.ok _) fun _ _ => .ok _
      · exact (plain_inBounds b c).bind fun _ _ => .ok _
  refine (hscan _).bind fun b _ => ?_
  repeat' split
  all_goals first | exact .ok _ | exact .malformed _ _

/-- A component that lies in the text is cut out of it. -/
theorem Lies.inBounds {p : String × Option String} (h : Lies text p start stop bracket) :
    InBounds (component text start stop bracket offset) := by
  obtain ⟨before, after, rfl, rfl, rfl, rfl⟩ := h.split
  rw [component_eq]
  split
  · exact .malformed _ _
  split
  · exact .malformed _ _
  · exact .ok p

/-- A step cuts out a component only at a dot outside quotes and brackets. -/
theorem splitter_inBounds {s : Splitter} {c : Char}
    (h : s.quoted = false → s.depth = 0 → c = '.' →
      InBounds (component text s.start s.position s.bracket offset)) :
    InBounds (Splitter.step text offset s c) := by
  dsimp only [Splitter.step]
  split
  case isTrue =>
    repeat' split
    all_goals exact .bind (.ok _) fun _ _ => .ok _
  case isFalse hquoted =>
    split
    case isTrue hdot =>
      simp only [Bool.and_eq_true, beq_iff_eq] at hdot
      refine (h (by simpa using hquoted) hdot.2 hdot.1).bind fun _ _ => ?_
      exact .bind (.ok _) fun _ _ => .ok _
    case isFalse =>
      split
      · exact .bind (.malformed _ _) fun _ _ => .ok _
      · repeat' split
        all_goals exact .bind (.ok _) fun _ _ => .ok _

theorem components_inBounds (htext : Closed text) : InBounds (components text offset) := by
  have hcalled {start stop : Nat} {bracket : Option Nat}
      (h : Asked text offset start stop bracket) :
      InBounds (component text start stop bracket offset) := by
    obtain ⟨p, hp⟩ := h.lies htext
    exact hp.inBounds
  -- on what is still to be read, whatever has been
  have hscan (front back : List Char) (s : Splitter) (hsplit : text = front ++ back)
      (hfront : front.foldlM (Splitter.step text offset) (.fresh [] []) = .ok s) :
      InBounds (back.foldlM (Splitter.step text offset) s) := by
    induction back generalizing front s with
    | nil => exact .ok s
    | cons c back ih =>
      rw [List.foldlM_cons]
      refine .bind (splitter_inBounds fun hq hd hc => ?_) fun t ht => ?_
      · exact hcalled (.dot (hc ▸ hsplit) hfront hq hd)
      · refine ih (front ++ [c]) t (by simp [hsplit]) ?_
        rw [scan_append hfront]
        exact scan_cons ht
  refine .bind (hscan [] text _ rfl rfl) fun s hs => ?_
  exact .bind (hcalled (.last hs)) fun _ _ => .ok _

theorem schemaOf_inBounds (r : Registry) (text : List Char) : InBounds (schemaOf r text) := by
  have hsplit (head : List Char) (stops : List Nat)
      (hstops : ∀ stop ∈ stops, ∃ front back, text = front ++ back ∧ stop = utf8Length front) :
      InBounds (splitAtSchema r text head stops) := by
    induction stops with
    | nil => exact fun _ _ h => nomatch h
    | cons stop stops ih =>
      obtain ⟨front, back, hfront, rfl⟩ := hstops stop List.mem_cons_self
      rw [splitAtSchema_cons hfront]
      split
      · exact .ok _
      split
      · exact .ok _
      · exact ih fun stop hstop => hstops stop (List.mem_cons_of_mem _ hstop)
  rw [schemaOf_eq]
  refine hsplit _ _ fun stop hstop => ?_
  obtain ⟨back, htext, -⟩ := schemaPart_prefix text
  rcases List.mem_cons.mp hstop with rfl | hstop
  · exact ⟨_, back, htext, rfl⟩
  · obtain ⟨front, c, more, hpart, -, rfl⟩ := mem_positionsOf (List.mem_reverse.mp hstop)
    refine ⟨front, c :: (more ++ back), ?_, Nat.zero_add _⟩
    rw [htext, hpart]
    simp

theorem normalizeFilter_inBounds (text : List Char) : InBounds (normalizeFilter text) := by
  unfold normalizeFilter
  split
  · exact .ok _
  · exact fun _ _ h => nomatch h

theorem segmentsOf_inBounds (parts : List (String × Option String)) :
    InBounds (segmentsOf parts) := by
  induction parts with
  | nil => exact .ok []
  | cons part parts ih =>
    obtain ⟨name, filter⟩ := part
    have hrest (segment : Segment) : InBounds (segmentsOf parts >>= fun segments =>
        .ok (segment :: segments)) := ih.bind fun _ _ => .ok _
    cases filter with
    | none => exact .bind (.ok _) fun segment _ => hrest segment
    | some filter =>
      exact .bind ((normalizeFilter_inBounds _).map _) fun segment _ => hrest segment

theorem attributePath_inBounds {r : Registry} {lead : List Char}
    (hstop : leadEnd text = .ok stop) (hlead : cut text 0 stop = .ok lead) :
    InBounds (attributePath r lead) := by
  have hsplits {part : List Char} {offset : Nat} (h : SplitText r text part offset) :
      InBounds (components part offset) :=
    components_inBounds h.closed
  unfold attributePath
  split
  · exact (normalizeFilter_inBounds _).map _
  split
  · refine (schemaOf_inBounds r lead).bind fun found hschema => ?_
    dsimp only
    split
    · split
      · exact .ok _
      · exact .malformed _ _
    · refine (hsplits (.behind hstop hlead hschema)).bind fun parts _ => ?_
      exact (segmentsOf_inBounds parts).bind fun _ _ => .ok _
  · exact (hsplits (.lead hstop hlead)).bind fun parts _ => segmentsOf_inBounds parts

theorem parseTrimmed_inBounds (r : Registry) (text : List Char) :
    InBounds (parseTrimmed r text) := by
  have hgeneral : InBounds (generalFilter text) := (normalizeFilter_inBounds text).map _
  refine (leadEnd_inBounds text).bind fun stop hstop => ?_
  obtain ⟨front, back, -, htext, hlength, -⟩ := leadEnd_split hstop
  have hfront : cut text 0 stop = .ok front := by rw [htext, hlength, cut_front]
  have hback : cut text stop (utf8Length text) = .ok back := by rw [htext, hlength, cut_back]
  refine .bind (hfront ▸ .ok front) fun lead hlead => ?_
  refine .bind (hback ▸ .ok back) fun rest _ => ?_
  have hpath : InBounds (attributePath r lead) := attributePath_inBounds hstop hlead
  dsimp only
  split
  · exact hgeneral
  split
  · exact hpath
  split
  · exact hgeneral
  refine hpath.bind fun segments _ => ?_
  split
  · exact .ok _
  · exact hgeneral

/-- A bracket opens behind the name of a component and closes at its end, around balanced text. -/
def BracketCloses (text : List Char) (start stop opened : Nat) : Prop :=
  ∃ before name inside after, text = before ++ name ++ '[' :: (inside ++ ']' :: after) ∧
    Balanced inside ∧ start = utf8Length before ∧ opened = utf8Length (before ++ name) ∧
      stop = utf8Length (before ++ name ++ '[' :: (inside ++ [']']))

/-- No slice of an expression is out of range or cuts a character. Where a component is asked for
with a bracket, the byte before its end is the bracket that closes this one, behind it. -/
theorem parse_inBounds (r : Registry) (text : String) :
    InBounds (parse r text) ∧
      ∀ part offset start stop opened, SplitText r (trimBlanks text.toList) part offset →
        Asked part offset start stop (some opened) →
          BracketCloses part start stop opened ∧ opened + 1 ≤ stop - 1 := by
  constructor
  · unfold parse
    dsimp only
    split
    · exact .malformed _ _
    split
    · exact .malformed _ _
    · exact (parseTrimmed_inBounds r _).map _
  · intro part offset start stop opened hpart hasked
    obtain ⟨⟨name, filter⟩, hlies⟩ := hasked.lies hpart.closed
    obtain ⟨before, after, hsplit, hstart, hstop, hbracket⟩ := hlies.split
    cases filter with
    | none => cases hbracket
    | some filter =>
      obtain rfl := Option.some.inj hbracket
      have hbalanced := hlies.balanced filter rfl
      refine ⟨⟨before, name.toList, filter.toList, after, by simp [hsplit, partText], hbalanced,
        hstart, rfl, by simp [hstop, partText]⟩, ?_⟩
      have hopening : '['.utf8Size = 1 := rfl
      have hclosing : ']'.utf8Size = 1 := rfl
      simp only [hstop, partText, utf8Length_append, utf8Length_cons, utf8Length_nil, hopening,
        hclosing]
      omega

/-- A bracket between quotes does not close the one that opens a component. -/
theorem parse_inBounds_quoted :
    InBounds (parse .standard "emails[type eq \"é]\"].value") ∧
      SplitText .standard (trimBlanks "emails[type eq \"é]\"].value".toList)
        "emails[type eq \"é]\"].value".toList 0 ∧
      Asked "emails[type eq \"é]\"].value".toList 0 0 21 (some 6) ∧
      BracketCloses "emails[type eq \"é]\"].value".toList 0 21 6 ∧ 6 + 1 ≤ 21 - 1 := by
  have hlead : leadEnd "emails[type eq \"é]\"].value".toList = .ok 27 := rfl
  have hpart : SplitText .standard (trimBlanks "emails[type eq \"é]\"].value".toList)
      "emails[type eq \"é]\"].value".toList 0 := .lead hlead rfl
  have hdot : "emails[type eq \"é]\"].value".toList =
      "emails[type eq \"é]\"]".toList ++ '.' :: "value".toList := rfl
  have hasked : Asked "emails[type eq \"é]\"].value".toList 0 0 21 (some 6) :=
    .dot hdot rfl rfl rfl
  obtain ⟨hparse, hcloses⟩ := parse_inBounds .standard "emails[type eq \"é]\"].value"
  exact ⟨hparse, hpart, hasked, hcloses _ _ _ _ _ hpart hasked⟩

end Expression

end Roster
