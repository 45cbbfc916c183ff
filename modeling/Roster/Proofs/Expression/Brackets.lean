import Roster.Proofs.Expression.Consumed
import Roster.Proofs.Expression.Enclosed
import Roster.Proofs.Expression.Split

/-!
A path that ends with brackets. The text in them may be any that leaves it to the last bracket to
close what the first one opened, as the text of a filter does, since it is balanced. Then the path
is read as one selection, behind the URN of an extension or none.
-/

namespace Roster

namespace Expression

/-- Whether brackets are open in front of each character of a text, and behind it. -/
def staysOpen (o : Opened) : List Char → Bool
  | [] => o.brackets != 0
  | c :: cs => o.brackets != 0 && staysOpen (o.step c) cs

/-- Inside some brackets, and nothing is quoted. -/
def inside (n : Nat) : Opened :=
  ⟨false, false, n + 1⟩

/-- Whether a text in brackets does not close them itself. -/
def isInner (cs : List Char) : Bool :=
  staysOpen (inside 0) cs

theorem brackets_of_staysOpen {o : Opened} {cs : List Char} (h : staysOpen o cs = true) :
    o.brackets ≠ 0 := by
  cases cs with
  | nil => simpa [staysOpen] using h
  | cons c cs =>
    rw [staysOpen, Bool.and_eq_true] at h
    simpa using h.1

theorem staysOpen_cons {c : Char} (hc : c ≠ '"' ∧ c ≠ '[' ∧ c ≠ ']') (n : Nat) (cs : List Char) :
    staysOpen (inside n) (c :: cs) = staysOpen (inside n) cs := by
  simp [staysOpen, inside, Opened.step, hc]

/-- A quotation ends with the quote behind it. -/
theorem Quoted.staysOpen {text : List Char} (h : Quoted text) (n : Nat) (cs : List Char) :
    staysOpen ⟨true, false, n + 1⟩ (text ++ '"' :: cs) = staysOpen (inside n) cs := by
  induction h with
  | nil => simp [Expression.staysOpen, inside, Opened.step]
  | verbatim hslash hquote _ ih =>
    simpa [Expression.staysOpen, Opened.step, hslash, hquote] using ih
  | escape c _ ih => simpa [Expression.staysOpen, Opened.step] using ih

/-- Balanced text leaves as much open as there was. -/
theorem Balanced.staysOpen {text : List Char} (h : Balanced text) (n : Nat) (cs : List Char) :
    staysOpen (inside n) (text ++ cs) = staysOpen (inside n) cs := by
  induction h generalizing n cs with
  | nil => rfl
  | plain hc =>
    simp only [isMark, Bool.or_eq_false_iff, beq_eq_false_iff_ne] at hc
    exact staysOpen_cons ⟨hc.1.1.1.1, hc.1.1.1.2, hc.1.1.2⟩ n cs
  | append _ _ hx hy => rw [List.append_assoc, hx, hy]
  | @quoted xs hxs =>
    have hopen := hxs.staysOpen n cs
    simpa [Expression.staysOpen, inside, Opened.step] using hopen
  | @brackets xs _ ih =>
    -- what stands in the brackets is passed over one level deeper
    have hdeeper := ih (n + 1) (']' :: cs)
    have hclose : Expression.staysOpen (inside (n + 1)) (']' :: cs) =
        Expression.staysOpen (inside n) cs := by
      simp [Expression.staysOpen, inside, Opened.step]
    rw [hclose] at hdeeper
    simpa [Expression.staysOpen, inside, Opened.step] using hdeeper
  | @parentheses xs _ ih =>
    have hinner := ih n (')' :: cs)
    rw [staysOpen_cons (by decide)] at hinner
    rw [List.cons_append, staysOpen_cons (by decide), List.append_assoc]
    exact hinner

/-- The text of a filter leaves it to the bracket behind it to close what stands in front. -/
theorem isInner_of_parse {text : String} {f : Filter} (h : Filter.parse text = .ok f) :
    isInner text.toList = true := by
  have hopen := (balanced_of_parse h).staysOpen 0 []
  rwa [List.append_nil] at hopen

end Expression

namespace Expression

/-! ### The scans inside the brackets -/

variable {r : Registry} {text : List Char} {offset : Nat}

/-- Where brackets are open, the leading path does not end. -/
theorem Boundary.step_open {b t : Boundary} {c : Char} (ho : b.marks.brackets ≠ 0)
    (hb : b.lead = none) (h : b.step c = .ok t) : t.lead = none := by
  have hopened : b.opened.isEmpty = false := by
    rw [List.isEmpty_eq_false_iff]
    intro hnil
    simp [marks, hnil] at ho
  simp only [step] at h
  split at h
  · cases h
    rw [← hb, ← b.quoted_lead c]
  · obtain ⟨next, hnext, h⟩ := bind_eq_ok.mp h
    cases h
    have hlead := Boundary.plain_lead hnext
    rwa [hopened, Bool.and_false, Bool.false_and, if_neg Bool.false_ne_true, hb] at hlead

theorem scan_open {cs : List Char} {b t : Boundary} (ho : staysOpen b.marks cs = true)
    (hb : b.lead = none) (h : cs.foldlM Boundary.step b = .ok t) :
    t.lead = none ∧ t.marks.brackets ≠ 0 := by
  induction cs generalizing b with
  | nil =>
    cases h
    exact ⟨hb, brackets_of_staysOpen ho⟩
  | cons c cs ih =>
    have hopen := brackets_of_staysOpen ho
    rw [staysOpen, Bool.and_eq_true] at ho
    obtain ⟨next, hnext, h⟩ := bind_eq_ok.mp ((List.foldlM_cons ..).symm.trans h)
    have hmarks := Boundary.step_marks hnext
    exact ih (hmarks ▸ ho.2) (Boundary.step_open hopen hb hnext) h

/-- A path with brackets at its end is all of the leading path. -/
theorem leadEnd_brackets {head inner : List Char} {stop : Nat} (hhead : head.all isLeadChar = true)
    (hinner : isInner inner = true) (h : leadEnd (head ++ '[' :: (inner ++ [']'])) = .ok stop) :
    stop = utf8Length (head ++ '[' :: (inner ++ [']'])) := by
  obtain ⟨last, hlast, h⟩ := bind_eq_ok.mp h
  have hposition := scan_position hlast
  have hlead : last.lead = none := by
    -- nothing is open in front of the bracket, and the one behind the path is open up to its end
    have hsolid := (Solid.ofLead hhead).scan_boundary (b := ⟨0, none, false, [], none⟩) rfl rfl
    rw [scan_append hsolid, List.foldlM_cons] at hlast
    obtain ⟨entered, hentered, hlast⟩ := bind_eq_ok.mp hlast
    rw [List.foldlM_append] at hlast
    obtain ⟨closing, hclosing, hlast⟩ := bind_eq_ok.mp hlast
    rw [List.foldlM_cons] at hlast
    obtain ⟨closed, hclosed, hlast⟩ := bind_eq_ok.mp hlast
    cases hlast
    have hmarks : entered.marks = inside 0 := by
      rw [Boundary.step_marks hentered]
      rfl
    have hnone : entered.lead = none := by
      have henters := (Boundary.encloses_brackets
        (b := Boundary.shifted ⟨0, none, false, [], none⟩ head) rfl).enter
      cases hentered.symm.trans henters
      rfl
    obtain ⟨hlead, hopen⟩ := scan_open (hmarks ▸ hinner) hnone hclosing
    exact Boundary.step_open hopen hlead hclosed
  split at h
  · cases h
  · split at h
    · cases h
    · cases h
      rw [hlead, Option.getD_none, hposition, Nat.zero_add]

theorem Splitter.Moves.position {s t : Splitter} {c : Char} (h : Moves text offset s c t) :
    t.position = s.position + c.utf8Size := by
  cases h <;> rfl

/-- Inside brackets a scan for components stays in the component that it has begun. -/
theorem scan_component {cs : List Char} {s t : Splitter} (ho : staysOpen s.marks cs = true)
    (h : cs.foldlM (Splitter.step text offset) s = .ok t) :
    (t.start = s.start ∧ t.bracket = s.bracket ∧ t.parts = s.parts) ∧ t.depth ≠ 0 ∧
      t.position = s.position + utf8Length cs := by
  induction cs generalizing s with
  | nil =>
    cases h
    exact ⟨⟨rfl, rfl, rfl⟩, brackets_of_staysOpen ho, rfl⟩
  | cons c cs ih =>
    have hopen : s.depth ≠ 0 := brackets_of_staysOpen ho
    rw [staysOpen, Bool.and_eq_true] at ho
    obtain ⟨next, hnext, h⟩ := bind_eq_ok.mp ((List.foldlM_cons ..).symm.trans h)
    have hmoves := Splitter.step_moves hnext
    obtain ⟨⟨hstart, hbracket, hparts⟩, hdepth, hposition⟩ := ih (hmoves.marks ▸ ho.2) h
    rw [hmoves.position, Nat.add_assoc, ← utf8Length_cons] at hposition
    refine ⟨?_, hdepth, hposition⟩
    cases hmoves with
    | dot _ hd => exact absurd hd hopen
    | opening => exact ⟨hstart, by simpa [hopen] using hbracket, hparts⟩
    | _ => exact ⟨hstart, hbracket, hparts⟩

/-- The scan of a name with brackets behind it ends in one component, that of the whole text. -/
theorem scan_brackets {word inner : List Char} {s : Splitter}
    (hword : ∀ c ∈ word, isMark c = false ∧ c ≠ '.') (hinner : isInner inner = true)
    (h : (word ++ '[' :: (inner ++ [']'])).foldlM (Splitter.step text offset)
      (.fresh [] []) = .ok s) :
    s.start = 0 ∧ s.bracket = some (utf8Length word) ∧ s.parts = [] ∧
      s.position = utf8Length word + 1 + utf8Length inner + 1 := by
  have hname := scan_name text offset hword (s := .fresh [] []) rfl rfl rfl
  have hopening : '['.utf8Size = 1 := rfl
  have hclosing : ']'.utf8Size = 1 := rfl
  have hentered : Splitter.step text offset ((Splitter.fresh [] []).shifted word) '[' =
      .ok (.bracketed [] word []) := by
    simp [Splitter.step, Splitter.fresh, Splitter.shifted, Splitter.bracketed, hopening, bind,
      Except.bind]
  rw [scan_append hname, scan_cons hentered, List.foldlM_append] at h
  obtain ⟨within, hwithin, h⟩ := bind_eq_ok.mp h
  rw [List.foldlM_cons] at h
  obtain ⟨closed, hclosed, h⟩ := bind_eq_ok.mp h
  cases h
  obtain ⟨⟨hstart, hbracket, hparts⟩, hdepth, hposition⟩ :=
    scan_component (s := .bracketed [] word []) hinner hwithin
  have hmoves := Splitter.step_moves hclosed
  have hend : s.position = utf8Length word + 1 + utf8Length inner + 1 := by
    rw [hmoves.position, hposition, hclosing]
    rfl
  refine ⟨?_, ?_, ?_, hend⟩
  all_goals cases hmoves with
    | dot _ hd => exact absurd hd hdepth
    | opening _ _ hc => exact absurd hc (by decide)
    | _ => assumption

/-- A name with brackets behind it is one component. -/
theorem components_brackets {word inner : List Char} {parts : List (String × Option String)}
    (hword : ∀ c ∈ word, isMark c = false ∧ c ≠ '.') (hinner : isInner inner = true)
    (h : components (word ++ '[' :: (inner ++ [']'])) offset = .ok parts) :
    isAttributeName word = true ∧ parts = [(String.ofList word, some (String.ofList inner))] := by
  have hname : cut (word ++ '[' :: (inner ++ [']'])) 0 (utf8Length word) = .ok word :=
    cut_front word _
  have hfilter : cut (word ++ '[' :: (inner ++ [']'])) (utf8Length word + 1)
      (utf8Length word + 1 + utf8Length inner) = .ok inner := by
    have hcut := cut_append (word ++ ['[']) inner [']']
    have hopening : '['.utf8Size = 1 := rfl
    simpa [hopening, Nat.add_assoc] using hcut
  obtain ⟨s, hs, h⟩ := bind_eq_ok.mp h
  obtain ⟨part, hpart, h⟩ := bind_eq_ok.mp h
  cases h
  obtain ⟨hstart, hbracket, hparts, hposition⟩ := scan_brackets hword hinner hs
  rw [hstart, hbracket, hposition] at hpart
  simp only [component, hname, Nat.add_sub_cancel, hfilter, bind, Except.bind, pure,
    Except.pure] at hpart
  obtain ⟨-, hpart⟩ := guard_eq_ok.mp hpart
  obtain ⟨hattribute, hpart⟩ := guard_eq_ok.mp hpart
  cases hpart
  exact ⟨by simpa using hattribute, by rw [hparts]; rfl⟩

/-! ### Reading -/

/-- The segment of a name with brackets behind it holds the bracket form of what is in them. -/
theorem segmentsOf_selection {name : String} {inner : List Char}
    {parts : List (String × Option String)} {segments : List Segment}
    (hname : isAttributeName name.toList = true) (hinner : isInner inner = true)
    (hparts : components (name.toList ++ '[' :: (inner ++ [']'])) offset = .ok parts)
    (hsegments : segmentsOf parts = .ok segments) :
    ∃ f, Filter.parse (String.ofList inner) = .ok f ∧
      segments = [.selection name f.bracketed.toText] := by
  obtain ⟨-, rfl⟩ := components_brackets (name_plain hname) hinner hparts
  obtain ⟨f, _, hf, hnil, rfl⟩ := segmentsOf_brackets.mp hsegments
  cases hnil
  exact ⟨f, hf, by rw [String.ofList_toList]⟩

section Urns

variable {urn name : String} {inner : List Char}

theorem schemaPart_brackets (hurn : IsExtension r urn)
    (hname : isAttributeName name.toList = true) (rest : List Char) :
    schemaPart (urn.toList ++ ':' :: (name.toList ++ '[' :: rest)) =
      urn.toList ++ ':' :: name.toList := by
  have hplain : ∀ c ∈ ':' :: name.toList, (c != '[') = true := by
    refine List.forall_mem_cons.mpr ⟨by decide, fun c hc => bne_iff_ne.mpr ?_⟩
    rintro rfl
    exact Filter.not_mem_of_isAttributeName hname (c := '[') rfl hc
  rw [schemaPart_extension hurn, ← List.cons_append, schemaPart,
    List.takeWhile_append_of_pos hplain]
  simp

/-- What is left behind the schema of such a path is the name with its brackets, or these alone
where the schema reaches up to them. -/
theorem schemaOf_brackets {ext : Option String} {rest : List Char} (hurn : IsExtension r urn)
    (hname : isAttributeName name.toList = true)
    (h : schemaOf r (urn.toList ++ ':' :: (name.toList ++ '[' :: (inner ++ [']']))) =
      .ok (ext, rest)) :
    rest = '[' :: (inner ++ [']']) ∨
      ext = some urn ∧ rest = name.toList ++ '[' :: (inner ++ [']']) := by
  have hpart := schemaPart_brackets hurn hname (inner ++ [']'])
  generalize htext : urn.toList ++ ':' :: (name.toList ++ '[' :: (inner ++ [']'])) = text at *
  by_cases hwhole : IsSchema r (String.ofList (schemaPart text))
  case pos =>
    have hsplit : text = schemaPart text ++ '[' :: (inner ++ [']']) := by
      rw [hpart, ← htext]
      simp
    rw [schemaOf_whole hsplit] at h
    split_ifs at h with hknown hcore
    · cases h
      exact .inl rfl
    · cases h
      exact .inl rfl
    · exact absurd hwhole (by simp [IsSchema, hknown, hcore])
  case neg =>
    simp only [IsSchema, not_or, Bool.not_eq_true] at hwhole
    obtain ⟨stops, -, hlast⟩ := schemaOf_lastColon htext.symm hpart
      (Filter.not_mem_of_isAttributeName hname rfl) hwhole.1 hwhole.2
    rw [String.ofList_toList, if_pos hurn.known] at hlast
    cases h.symm.trans hlast
    exact .inr ⟨rfl, rfl⟩

end Urns

/-- The segments in front of the brackets are those of the URN, if there is one, and the filter in
them is put in bracket form. -/
theorem attributePath_brackets {urn : Option String} {name : String} {inner : List Char}
    {segments : List Segment} (hurn : ∀ u ∈ urn, IsExtension r u)
    (hname : isAttributeName name.toList = true) (hinner : isInner inner = true)
    (h : attributePath r (schemaText urn ++ (name.toList ++ '[' :: (inner ++ [']']))) =
      .ok segments) :
    ∃ f, Filter.parse (String.ofList inner) = .ok f ∧
      segments = (urn.map Segment.name).toList ++ [.selection name f.bracketed.toText] := by
  cases urn with
  | none =>
    have hwrap := unwrapped?_name hname ('[' :: (inner ++ [']']))
    have hplain : beginsWith "urn:".toList (name.toList ++ '[' :: (inner ++ [']'])) = false :=
      Filter.beginsWith_urn_name hname (by simpa using (by decide : isNameChar '[' = false))
    cases attributePath_read h with
    | bracketed hwrap' => cases hwrap.symm.trans hwrap'
    | extension _ hurn => cases hplain.symm.trans hurn
    | behind _ hurn => cases hplain.symm.trans hurn
    | plain _ _ hparts hsegments => exact segmentsOf_selection hname hinner hparts hsegments
  | some u =>
    have hu := hurn u rfl
    have hcolon : schemaText (some u) ++ (name.toList ++ '[' :: (inner ++ [']'])) =
        u.toList ++ ':' :: (name.toList ++ '[' :: (inner ++ [']'])) := by
      simp [schemaText]
    obtain ⟨hbegins, hwrap⟩ := hu.begins (':' :: (name.toList ++ '[' :: (inner ++ [']'])))
    rw [hcolon] at h
    cases attributePath_read h with
    | bracketed hwrap' => cases hwrap.symm.trans hwrap'
    | plain _ hurn => cases hbegins.symm.trans hurn
    | extension _ _ hschema =>
      rcases schemaOf_brackets hu hname hschema with hnil | ⟨-, hnil⟩ <;> simp at hnil
    | behind _ _ hschema _ hparts hsegments =>
      rcases schemaOf_brackets hu hname hschema with rfl | ⟨rfl, rfl⟩
      · -- no name is left in front of the brackets
        have hword : ∀ c ∈ ([] : List Char), isMark c = false ∧ c ≠ '.' := by simp
        have hnone := (components_brackets hword hinner hparts).1
        cases hnone
      · obtain ⟨f, hf, rfl⟩ := segmentsOf_selection hname hinner hparts hsegments
        exact ⟨f, hf, rfl⟩

theorem trimmed_brackets {head : List Char} (hne : head ≠ []) (hhead : head.all isLeadChar = true)
    (inner : List Char) : Trimmed (head ++ '[' :: (inner ++ [']'])) := by
  constructor
  · intro c hc
    rw [List.head?_append_of_ne_nil _ hne] at hc
    have hletter := List.all_eq_true.mp hhead c (List.mem_of_head? hc)
    simp only [isLeadChar, Bool.and_eq_true, Bool.not_eq_true'] at hletter
    exact hletter.2
  · intro c hc
    rw [← List.cons_append, ← List.append_assoc, List.getLast?_concat] at hc
    cases hc
    decide

/-- What is read of a path with brackets at its end, and a URN in front of it or none. -/
theorem parse_brackets {urn : Option String} {name inner : String} {text : String} {e : Expression}
    (htext : text.toList = schemaText urn ++ (name.toList ++ '[' :: (inner.toList ++ [']'])))
    (hurn : ∀ u ∈ urn, IsExtension r u) (hname : isAttributeName name.toList = true)
    (hinner : isInner inner.toList = true) (h : parse r text = .ok e) :
    ∃ f, Filter.parse inner = .ok f ∧
      e = ⟨(urn.map Segment.name).toList ++ [.selection name f.bracketed.toText]⟩ := by
  have hlead : (schemaText urn ++ name.toList).all isLeadChar = true := by
    have hletters := lead_of_qualified (Filter.isAttributeName_qualified hname)
    cases urn with
    | none => simpa [schemaText] using hletters
    | some u =>
      have hcolon : isLeadChar ':' = true := by decide
      simpa [schemaText, hcolon, (hurn u rfl).lead] using hletters
  have hsplit : text.toList =
      (schemaText urn ++ name.toList) ++ '[' :: (inner.toList ++ [']']) := by
    rw [htext, List.append_assoc]
  have htrimmed : Trimmed text.toList := by
    rw [hsplit]
    exact trimmed_brackets (by simp [Filter.ne_nil_of_isAttributeName hname]) hlead inner.toList
  have hnonempty : text.toList ≠ [] := by simp [hsplit]
  obtain ⟨-, h⟩ := (parse_visible htrimmed hnonempty).mp h
  -- the whole text is one leading path
  obtain ⟨stop, hstop, -⟩ := bind_eq_ok.mp h
  have hend : leadEnd (text.toList ++ []) = .ok (utf8Length text.toList) := by
    have hwhole := hstop
    rw [hsplit] at hwhole
    rw [List.append_nil, hstop, leadEnd_brackets hlead hinner hwhole, hsplit]
  have hpath : parseTrimmed r (text.toList ++ []) = attributePath r text.toList := by
    rw [parseTrimmed_lead hend]
    simp [hnonempty, show trimBlanks [] = [] from rfl]
  rw [List.append_nil, h, eq_comm, htext] at hpath
  obtain ⟨f, hf, hsegments⟩ := attributePath_brackets hurn hname hinner hpath
  rw [String.ofList_toList] at hf
  obtain ⟨segments⟩ := e
  exact ⟨f, hf, congrArg Expression.mk hsegments⟩

end Expression

end Roster
