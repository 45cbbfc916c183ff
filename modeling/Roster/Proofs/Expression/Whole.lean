import Roster.Proofs.Expression.Normalized

/-!
Filters that are the whole of an expression. The path in front of such a filter is looked at first;
the filter is read back when what stands behind that path cannot be attached to it.
-/

namespace Roster

namespace Expression

variable {r : Registry}

/-! ### Behind a leading path -/

/-- A test behind a path is attached to it, or the whole text is one filter. -/
def attachOr (r : Registry) (text front rest : List Char) :
    Except ExpressionError (List Segment) := do
  let segments ← attributePath r front
  match attach? segments rest with
  | some segments => .ok segments
  | none => generalFilter text

theorem attachOr_failed {front : List Char} (text rest : List Char)
    (h : ∀ segments, attributePath r front ≠ .ok segments) (segments : List Segment) :
    attachOr r text front rest ≠ .ok segments := by
  intro hattach
  obtain ⟨found, hfound, -⟩ := bind_eq_ok.mp hattach
  exact h found hfound

theorem parseTrimmed_lead {front back : List Char}
    (hstop : leadEnd (front ++ back) = .ok (utf8Length front)) :
    parseTrimmed r (front ++ back) =
      if front.isEmpty || (front.head? == some '[' && !(trimBlanks back).isEmpty) then
        generalFilter (front ++ back)
      else if (trimBlanks back).isEmpty then attributePath r front
      else if front.getLast? == some ']' then generalFilter (front ++ back)
      else attachOr r (front ++ back) front (trimBlanks back) := by
  rw [parseTrimmed, hstop]
  simp only [bind, Except.bind, cut_front, cut_back]
  rfl

/-- A text without anything behind its leading path is an attribute path. -/
theorem parseTrimmed_path {text : List Char} (h : Solid text) (hne : text ≠ []) :
    parseTrimmed r text = attributePath r text := by
  have hpath : parseTrimmed r (text ++ []) = _ :=
    parseTrimmed_lead (leadEnd_append h (by simpa using h.balanced) (by simp))
  simpa [hne, show trimBlanks [] = [] from rfl] using hpath

/-- A leading path and a test behind it, or one filter where that cannot be attached. -/
theorem parseTrimmed_ends {front more : List Char} {c : Char} (hf : Leads front)
    (hstop : leadEnd (front ++ ' ' :: c :: more) = .ok (utf8Length front))
    (hvisible : EndsVisible (front ++ ' ' :: c :: more)) (hc : isBlank c = false) :
    parseTrimmed r (front ++ ' ' :: c :: more) =
      attachOr r (front ++ ' ' :: c :: more) front (c :: more) := by
  rw [parseTrimmed_lead hstop, hvisible.trimBlanks_behind hc]
  simp [hf.nonempty, hf.first, hf.last]

theorem parseTrimmed_leads {front more : List Char} {c : Char} (hf : Leads front)
    (hall : Balanced (front ++ ' ' :: c :: more))
    (hvisible : EndsVisible (front ++ ' ' :: c :: more)) (hc : isBlank c = false) :
    parseTrimmed r (front ++ ' ' :: c :: more) =
      attachOr r (front ++ ' ' :: c :: more) front (c :: more) := by
  have hstart : ∀ d ∈ (' ' :: c :: more).head?, (isBlank d || d == '(' || d == '"') = true := by
    rintro d ⟨⟩
    rfl
  exact parseTrimmed_ends hf (leadEnd_append hf.solid hall hstart) hvisible hc

/-! ### Legible filters -/

/-- A filter in bracket form within the limits of reading, none of whose attributes is `not`. -/
structure Legible (f : Filter) : Prop where
  wellFormed : f.WellFormed
  bracketed : f.bracketed = f
  depth : f.depth ≤ Filter.greatestDepth
  names : ∀ a ∈ f.paths, sameName a.name "not" = false

theorem isNot_of_name {a : AttributePath} (h : sameName a.name "not" = false) :
    a.isNot = false := by
  simp [AttributePath.isNot, h]

variable {f : Filter}

theorem Legible.parse_toText (h : Legible f)
    (hlen : utf8Length f.toText.toList ≤ Filter.greatestLength) : Filter.parse f.toText = .ok f :=
  h.wellFormed.parse_toText hlen h.depth fun a ha => isNot_of_name (h.names a ha)

/-- Without the schema of its first path a filter is read back as well. -/
theorem Legible.parse_unqualified (h : Legible f)
    (hlen : utf8Length f.unqualified.toText.toList ≤ Filter.greatestLength) :
    Filter.parse f.unqualified.toText = .ok f.unqualified := by
  refine h.wellFormed.unqualified.parse_toText hlen (f.depth_unqualified ▸ h.depth) fun a ha => ?_
  have hname : a.name ∈ f.paths.map (·.name) :=
    f.names_unqualified ▸ List.mem_map_of_mem ha
  obtain ⟨b, hb, hsame⟩ := List.mem_map.mp hname
  exact isNot_of_name (hsame ▸ h.names b hb)

theorem Legible.reread (h : Legible f)
    (hlen : utf8Length f.toText.toList ≤ Filter.greatestLength) : Reread f.toText :=
  ⟨f, h.parse_toText hlen, h.bracketed, rfl⟩

theorem generalFilter_reread {text : String} (h : Reread text) :
    generalFilter text.toList = .ok [.test text] := by
  rw [generalFilter, h.normalizeFilter]
  rfl

/-- A text that begins with a plain name and a blank is one test or one filter. -/
theorem parseTrimmed_word (hf : f.WellFormed) (hread : Filter.parse f.toText = .ok f)
    {name : String} {c : Char} {more : List Char} (hname : isAttributeName name.toList = true)
    (hc : isBlank c = false) (htext : f.toText.toList = name.toList ++ ' ' :: c :: more) :
    parseTrimmed r f.toText.toList =
      if f.testPath?.isSome then .ok [.test f.toText] else generalFilter f.toText.toList := by
  have hleads : Leads name.toList :=
    .ofQualified (Filter.ne_nil_of_isAttributeName hname) (Filter.isAttributeName_qualified hname)
  have hpath : attributePath r name.toList = .ok [.name name] :=
    attributePath_unqualified [(name, none)] (by simp)
      (by simpa using ⟨hname, by simp⟩) (by simp)
  have hjoined : f.toText = name ++ " " ++ String.ofList (c :: more) := by
    simp [← String.toList_inj, htext]
  have hvisible := Filter.endsVisible_toText f
  have hbalanced := balanced_filter hf
  rw [hjoined] at hread
  have hattach := attach?_read [] (isUrn_name hname) hread
  rw [htext] at hvisible hbalanced ⊢
  rw [parseTrimmed_leads hleads hbalanced hvisible hc]
  simp only [attachOr, hpath, bind, Except.bind]
  rw [List.nil_append] at hattach
  rw [hattach]
  -- one test stands alone for want of an owner, and anything else is not attached
  cases f.testPath? <;> rfl

theorem parseTrimmed_named (h : Legible f)
    (hlen : utf8Length f.toText.toList ≤ Filter.greatestLength) {name : String} {c : Char}
    {more : List Char} (hname : isAttributeName name.toList = true) (hc : isBlank c = false)
    (htext : f.toText.toList = name.toList ++ ' ' :: c :: more) :
    parseTrimmed r f.toText.toList = .ok [.test f.toText] := by
  have hgeneral := generalFilter_reread (h.reread hlen)
  rw [parseTrimmed_word h.wellFormed (h.parse_toText hlen) hname hc htext]
  split
  · rfl
  · exact hgeneral

/-! ### Filters that begin with a qualified test -/

/-- Whether a text is the URN of a schema. -/
def IsSchema (r : Registry) (urn : String) : Prop :=
  r.isKnownExtension urn = true ∨ isCoreSchema urn = true

variable {a : AttributePath} {urn : String}

theorem qualified_text (h : a.WellFormed) (hurn : a.schema = some urn) :
    beginsWith "urn:".toList a.toText.toList = true ∧ unwrapped? a.toText.toList = none ∧
      schemaPart a.toText.toList = a.toText.toList := by
  have hplain : ∀ c ∈ a.toText.toList, c ≠ '[' := by
    rintro c hc rfl
    exact absurd (List.all_eq_true.mp (Filter.toText_qualifiedChars h) '[' hc) (by decide)
  refine ⟨?_, unwrapped?_eq_none fun hfirst => hplain _ (List.mem_of_head? hfirst) rfl, ?_⟩
  · simpa using Filter.toText_begins h hurn []
  · exact List.takeWhile_eq_self_iff.mpr fun c hc => bne_iff_ne.mpr (hplain c hc)

theorem attributePath_core (h : a.WellFormed) (hurn : a.schema = some urn)
    (hknown : r.isKnownExtension a.toText = false) (hcore : isCoreSchema a.toText = true)
    (segments : List Segment) : attributePath r a.toText.toList ≠ .ok segments := by
  obtain ⟨hbegins, hwrap, hpart⟩ := qualified_text h hurn
  have hschema : schemaOf r a.toText.toList = .ok (none, []) := by
    rw [schemaOf_eq, hpart, splitAtSchema_cons (List.append_nil _).symm, String.ofList_toList,
      hknown, if_neg Bool.false_ne_true, if_pos hcore]
    rfl
  simp only [attributePath, hbegins, hwrap, hschema, if_true, ne_eq]
  rintro ⟨⟩

/-- Where the whole name is no schema, the URN in front of it is tried, and then what stands before
each colon of that. -/
theorem schemaOf_inner (h : a.WellFormed) (hsub : a.sub = none) (hurn : a.schema = some urn)
    (hknown : r.isKnownExtension a.toText = false) (hcore : isCoreSchema a.toText = false) :
    a.toText.toList = urn.toList ++ ':' :: a.name.toList ∧
      ∃ stops, (∀ stop ∈ stops, ∃ before after, urn.toList = before ++ ':' :: after ∧
          stop = utf8Length before) ∧
        schemaOf r a.toText.toList =
          if r.isKnownExtension urn then .ok (some urn, a.name.toList)
          else if isCoreSchema urn then .ok (none, a.name.toList)
          else splitAtSchema r a.toText.toList (schemaPart a.toText.toList) stops := by
  obtain ⟨-, -, hpart⟩ := qualified_text h hurn
  have htext : a.toText.toList = urn.toList ++ ':' :: a.name.toList := by
    simpa [Filter.localPart, hsub] using Filter.toText_qualified hurn
  have hcolon := Filter.not_mem_of_isAttributeName h.name (c := ':') rfl
  have hschema := schemaOf_lastColon (r := r) htext (hpart.trans htext) hcolon
    (by rwa [hpart, String.ofList_toList]) (by rwa [hpart, String.ofList_toList])
  rw [String.ofList_toList] at hschema
  exact ⟨htext, hschema⟩

theorem attributePath_found {ext : Option String} (h : a.WellFormed) (hurn : a.schema = some urn)
    (hschema : schemaOf r a.toText.toList = .ok (ext, a.name.toList)) :
    attributePath r a.toText.toList =
      .ok ((ext.map Segment.name).toList ++ [.name a.name]) := by
  obtain ⟨hbegins, hwrap, -⟩ := qualified_text h hurn
  have hpart : ∀ p ∈ [(a.name, (none : Option String))], IsPart p := by
    simpa using ⟨h.name, by simp⟩
  exact attributePath_parts (by simp) hpart rfl hbegins hwrap hschema

/-- Where the URN in front is no schema either, nothing is: what a shorter one leaves has a colon
in it. -/
theorem attributePath_unknown (h : a.WellFormed) (hsub : a.sub = none) (hurn : a.schema = some urn)
    (hknown : r.isKnownExtension a.toText = false) (hcore : isCoreSchema a.toText = false)
    (hno : ¬IsSchema r urn) (segments : List Segment) :
    attributePath r a.toText.toList ≠ .ok segments := by
  intro hpath
  obtain ⟨hbegins, hwrap, -⟩ := qualified_text h hurn
  obtain ⟨htext, stops, hstops, hschema⟩ := schemaOf_inner h hsub hurn hknown hcore
  have hqualified := Filter.toText_qualifiedChars h
  simp only [IsSchema, not_or, Bool.not_eq_true] at hno
  rw [hno.1, hno.2, if_neg Bool.false_ne_true, if_neg Bool.false_ne_true] at hschema
  -- what is left behind a front of the URN is its other part, a colon and the name
  have hleft {ext : Option String} {rest : List Char}
      (hfound : schemaOf r a.toText.toList = .ok (ext, rest)) :
      ∃ after, rest = after ++ ':' :: a.name.toList ∧ rest.all Filter.isQualifiedChar = true := by
    obtain ⟨before, back, ⟨after, rfl⟩, hsplit, rfl, -⟩ := splitAtSchema_eq_ok
      (fun _ back => ∃ after, back = ':' :: (after ++ ':' :: a.name.toList))
      (fun stop hstop => by
        obtain ⟨before, after, hbefore, rfl⟩ := hstops stop hstop
        exact ⟨before, _, by rw [htext, hbefore]; simp, rfl, after, rfl⟩) (hschema ▸ hfound)
    rw [hsplit, List.all_append, List.all_cons, Bool.and_eq_true, Bool.and_eq_true] at hqualified
    exact ⟨after, rfl, hqualified.2.2⟩
  cases attributePath_read hpath with
  | bracketed hwrap' => cases hwrap.symm.trans hwrap'
  | plain _ hbegins' => cases hbegins.symm.trans hbegins'
  | extension _ _ hfound =>
    obtain ⟨after, hnil, -⟩ := hleft hfound
    simp at hnil
  | behind _ _ hfound _ hparts =>
    obtain ⟨after, rfl, hrest⟩ := hleft hfound
    exact components_colon hrest hparts (by simp)

theorem attached_eq_test {front : List Segment} {text other : String}
    (h : attached front text = [.test other]) : other = text := by
  have hlast {before : List Segment} {s t : Segment} (h : before ++ [s] = [t]) : s = t := by
    have hsplit : before ++ [s] = [] ++ [t] := h
    exact List.singleton_inj.mp (List.append_inj' hsplit rfl).2
  rw [attached] at h
  split at h
  · split at h
    · cases hlast h
      rfl
    · cases hlast h
  · cases hlast h
    rfl

/-- A single test is attached to the schema of its path and what it was is lost; what joins several
filters is one filter. -/
theorem attachOr_qualified (h : Legible f)
    (hlen : utf8Length f.toText.toList ≤ Filter.greatestLength)
    (hpath : f.leftmost.testPath? = some a) (hsub : a.sub = none) (hurn : a.schema = some urn)
    {front : List Segment} {c : Char} {more : List Char}
    (hfront : attributePath r a.toText.toList = .ok (front ++ [.name a.name]))
    (htext : f.toText.toList = a.toText.toList ++ ' ' :: c :: more) :
    attachOr r f.toText.toList a.toText.toList (c :: more) = .ok [.test f.toText] ↔
      f.isOperand = false := by
  have ha : a.WellFormed := Filter.wellFormed_testPath h.wellFormed.leftmost hpath
  have hunqualified := Filter.toText_unqualified hpath hurn
  have hplain : f.unqualified.toText = a.name ++ " " ++ String.ofList (c :: more) := by
    rw [Filter.toText_qualified hurn, hunqualified] at htext
    simpa [← String.toList_inj, Filter.localPart, hsub] using htext
  have hshorter : utf8Length f.unqualified.toText.toList ≤ Filter.greatestLength := by
    rw [hunqualified, String.toList_append, utf8Length_append] at hlen
    omega
  have hread := h.parse_unqualified hshorter
  rw [hplain] at hread
  have hattach := attach?_read front (isUrn_name ha.name) hread
  simp only [attachOr, hfront, bind, Except.bind, hattach, Filter.testPath?_unqualified]
  cases hoperand : f.isOperand with
  | true =>
    -- what is attached is the test without its schema, which is a shorter text
    rw [Filter.leftmost_of_isOperand hoperand] at hpath
    simp only [hpath, Option.map_some, Except.ok.injEq, Bool.true_eq_false, iff_false]
    intro hsame
    have hlength := congrArg String.length (attached_eq_test hsame)
    simp [hunqualified] at hlength
  | false =>
    simpa [Filter.testPath?_of_not_isOperand hoperand] using generalFilter_reread (h.reread hlen)

theorem parseTrimmed_qualified (h : Legible f)
    (hlen : utf8Length f.toText.toList ≤ Filter.greatestLength)
    (hpath : f.leftmost.testPath? = some a) (hurn : a.schema = some urn) :
    parseTrimmed r f.toText.toList = .ok [.test f.toText] ↔
      r.isKnownExtension a.toText = true ∨
        isCoreSchema a.toText = false ∧ IsSchema r urn ∧ f.isOperand = false := by
  have ha : a.WellFormed := Filter.wellFormed_testPath h.wellFormed.leftmost hpath
  have hsub : a.sub = none := Filter.sub_testPath (Filter.bracketed_leftmost h.bracketed) hpath
  obtain ⟨c, more, htext, hc⟩ := Filter.toText_test hpath
  have hleads : Leads a.toText.toList :=
    .ofQualified (Filter.toText_ne_nil ha) (Filter.toText_qualifiedChars ha)
  have hread : parseTrimmed r f.toText.toList =
      attachOr r f.toText.toList a.toText.toList (c :: more) := by
    have hbalanced := balanced_filter h.wellFormed
    have hvisible := Filter.endsVisible_toText f
    rw [htext] at hbalanced hvisible ⊢
    exact parseTrimmed_leads hleads hbalanced hvisible hc
  have hgeneral := generalFilter_reread (h.reread hlen)
  rw [hread]
  -- schemas are tried in the order of the cases: the whole name, then the URN in front of it
  cases hknown : r.isKnownExtension a.toText with
  | true =>
    obtain ⟨hbegins, hwrap, hpart⟩ := qualified_text ha hurn
    have hurn' : isUrn a.toText = true := hbegins
    simp [attachOr, attributePath_whole hbegins hwrap hpart hknown, attach?, hurn', bind,
      Except.bind, hgeneral]
  | false =>
    cases hcore : isCoreSchema a.toText with
    | true =>
      have hnone := attachOr_failed f.toText.toList (c :: more)
        (attributePath_core ha hurn hknown hcore)
      simp [hnone]
    | false =>
      obtain ⟨-, stops, -, hschema⟩ := schemaOf_inner ha hsub hurn hknown hcore
      cases hext : r.isKnownExtension urn with
      | true =>
        rw [if_pos hext] at hschema
        have hfront := attributePath_found ha hurn hschema
        have hattach := attachOr_qualified h hlen hpath hsub hurn hfront htext
        simpa [IsSchema, hext] using hattach
      | false =>
        rw [hext, if_neg Bool.false_ne_true] at hschema
        cases hbase : isCoreSchema urn with
        | true =>
          rw [if_pos hbase] at hschema
          have hfront := attributePath_found ha hurn hschema
          have hattach := attachOr_qualified h hlen hpath hsub hurn hfront htext
          simpa [IsSchema, hbase] using hattach
        | false =>
          have hno : ¬IsSchema r urn := by simp [IsSchema, hext, hbase]
          have hnone := attachOr_failed f.toText.toList (c :: more)
            (attributePath_unknown ha hsub hurn hknown hcore hno)
          simp [hnone, hno]

/-! ### Every filter -/

/-- The text of a selection is a leading path that begins with a name and ends with a bracket. -/
theorem selection_text {g : Filter} (h : (Filter.select a g).WellFormed) :
    Solid (Filter.select a g).toText.toList ∧
      (Filter.select a g).toText.toList.head? ≠ some '[' ∧
      (Filter.select a g).toText.toList.getLast? = some ']' := by
  obtain ⟨ha, -, hg⟩ := h
  have htext : (Filter.select a g).toText.toList =
      a.toText.toList ++ ('[' :: (g.toText.toList ++ [']'])) := by
    simp [Filter.toText]
  have hleads := Leads.ofQualified (Filter.toText_ne_nil ha) (Filter.toText_qualifiedChars ha)
  rw [htext]
  refine ⟨(solid_path ha).append (.brackets (balanced_filter hg)), ?_, ?_⟩
  · rw [List.head?_append_of_ne_nil _ hleads.nonempty]
    exact hleads.first
  · rw [← List.cons_append, ← List.append_assoc, List.getLast?_concat]

theorem parseTrimmed_brackets {g : Filter} (h : (Filter.select a g).WellFormed) :
    parseTrimmed r (Filter.select a g).toText.toList =
      attributePath r (Filter.select a g).toText.toList := by
  obtain ⟨hsolid, -, hlast⟩ := selection_text h
  refine parseTrimmed_path hsolid fun hnil => ?_
  simp [hnil] at hlast

/-- With more behind its brackets a selection is part of one filter. -/
theorem parseTrimmed_selected (hf : f.WellFormed) {g : Filter} (hlead : f.leftmost = .select a g)
    (hoperand : f.isOperand = false) :
    parseTrimmed r f.toText.toList = generalFilter f.toText.toList := by
  obtain ⟨hsolid, hfirst, hlast⟩ := selection_text (hlead ▸ hf.leftmost)
  obtain ⟨back, htext, hback⟩ := f.toText_leftmost
  rcases hback with ⟨halone, -⟩ | ⟨-, c, more, rfl, hc⟩
  · rw [hoperand] at halone
    cases halone
  have hbalanced := balanced_filter hf
  have hvisible := Filter.endsVisible_toText f
  rw [hlead] at htext
  have hne : (Filter.select a g).toText.toList ≠ [] := by
    intro hnil
    simp [hnil] at hlast
  generalize (Filter.select a g).toText.toList = front at *
  rw [htext] at hbalanced hvisible
  have hstart : ∀ d ∈ (' ' :: c :: more).head?, (isBlank d || d == '(' || d == '"') = true := by
    rintro d ⟨⟩
    rfl
  rw [htext, parseTrimmed_lead (leadEnd_append hsolid hbalanced hstart),
    hvisible.trimBlanks_behind hc]
  simp [hne, hfirst, hlast]

/-- In front of a parenthesis the leading path is empty. -/
theorem parseTrimmed_grouped (hf : f.WellFormed) {g : Filter} (hlead : f.leftmost = .group g) :
    parseTrimmed r f.toText.toList = generalFilter f.toText.toList := by
  obtain ⟨back, htext, -⟩ := f.toText_leftmost
  have hgroup : f.toText.toList = [] ++ '(' :: (g.toText.toList ++ ')' :: back) := by
    rw [htext, hlead, Filter.toText_group]
    rfl
  have hbalanced := balanced_filter hf
  rw [hgroup] at hbalanced ⊢
  rw [parseTrimmed_lead (leadEnd_append .nil hbalanced (by rintro c ⟨⟩; rfl))]
  rfl

/-- A selection alone is a path; with more behind it, it is part of a filter. -/
theorem parseTrimmed_selection (h : Legible f)
    (hlen : utf8Length f.toText.toList ≤ Filter.greatestLength) {g : Filter}
    (hlead : f.leftmost = .select a g) :
    parseTrimmed r f.toText.toList = .ok [.test f.toText] ↔ f.isOperand = false := by
  cases hoperand : f.isOperand with
  | true =>
    -- nothing follows the brackets, and the segments of a path are no test
    rw [Filter.leftmost_of_isOperand hoperand] at hlead
    subst hlead
    obtain ⟨hsolid, hfirst, -⟩ := selection_text h.wellFormed
    rw [parseTrimmed_brackets h.wellFormed]
    simp only [Bool.true_eq_false, iff_false]
    intro hpath
    obtain ⟨ext, ps, -, hsegments⟩ := attributePath_eq_ok (solid_schemaPart hsolid)
      (unwrapped?_eq_none hfirst) hpath
    exact test_ne_pathSegments ext ps _ hsegments.symm
  | false =>
    rw [parseTrimmed_selected h.wellFormed hlead hoperand, generalFilter_reread (h.reread hlen)]
    simp

/-- A filter that is the whole of an expression and is not taken for an attribute path with a test
behind it. -/
structure StaysWhole (r : Registry) (f : Filter) : Prop where
  selection : ∀ a g, f.leftmost = .select a g → f.isOperand = false
  qualified : ∀ a urn, f.leftmost.testPath? = some a → a.schema = some urn →
    r.isKnownExtension a.toText = true ∨
      isCoreSchema a.toText = false ∧ IsSchema r urn ∧ f.isOperand = false

theorem parseTrimmed_test (h : Legible f)
    (hlen : utf8Length f.toText.toList ≤ Filter.greatestLength)
    (hpath : f.leftmost.testPath? = some a) :
    parseTrimmed r f.toText.toList = .ok [.test f.toText] ↔ StaysWhole r f := by
  have hselect : ∀ b g, f.leftmost ≠ .select b g := by
    rintro b g hlead
    rw [hlead] at hpath
    cases hpath
  cases hurn : a.schema with
  | some urn =>
    rw [parseTrimmed_qualified h hlen hpath hurn]
    constructor
    · intro hstays
      refine ⟨fun b g hlead => absurd hlead (hselect b g), fun b other hb hother => ?_⟩
      cases hpath.symm.trans hb
      cases hurn.symm.trans hother
      exact hstays
    · intro hstays
      exact hstays.qualified a urn hpath hurn
  | none =>
    have ha : a.WellFormed := Filter.wellFormed_testPath h.wellFormed.leftmost hpath
    have hsub : a.sub = none := Filter.sub_testPath (Filter.bracketed_leftmost h.bracketed) hpath
    obtain ⟨c, more, htext, hc⟩ := Filter.toText_test hpath
    rw [Filter.toText_localPart hurn] at htext
    have hread := parseTrimmed_named (r := r) h hlen ha.name hc
      (by simpa [Filter.localPart, hsub] using htext)
    refine iff_of_true hread
      ⟨fun b g hlead => absurd hlead (hselect b g), fun b urn hb hother => ?_⟩
    cases hpath.symm.trans hb
    cases hurn.symm.trans hother

/-- A filter alone is read back as the one test that it was exactly when it stays whole. -/
theorem parseTrimmed_filter (h : Legible f)
    (hlen : utf8Length f.toText.toList ≤ Filter.greatestLength) :
    parseTrimmed r f.toText.toList = .ok [.test f.toText] ↔ StaysWhole r f := by
  obtain ⟨back, htext, -⟩ := f.toText_leftmost
  have hplain {lead : Filter} (hlead : f.leftmost = lead) (hselect : ∀ b g, lead ≠ .select b g)
      (htest : lead.testPath? = none) : StaysWhole r f :=
    ⟨fun b g hb => absurd (hlead.symm.trans hb) (hselect b g), fun b urn hb => by
      rw [hlead, htest] at hb
      cases hb⟩
  cases hlead : f.leftmost with
  | compare b op v => exact parseTrimmed_test h hlen (by rw [hlead]; rfl)
  | present b => exact parseTrimmed_test h hlen (by rw [hlead]; rfl)
  | select b g =>
    rw [parseTrimmed_selection h hlen hlead]
    refine ⟨fun hoperand => ⟨fun _ _ _ => hoperand, fun c urn hc => ?_⟩, fun hstays =>
      hstays.selection b g hlead⟩
    rw [hlead] at hc
    cases hc
  | and g i => exact absurd f.isOperand_leftmost (by simp [hlead, Filter.isOperand])
  | or g i => exact absurd f.isOperand_leftmost (by simp [hlead, Filter.isOperand])
  | not g =>
    have hnot : f.toText.toList =
        "not".toList ++ ' ' :: '(' :: (g.toText.toList ++ ')' :: back) := by
      rw [htext, hlead, Filter.toText_not]
    exact iff_of_true (parseTrimmed_named h hlen rfl (by decide) hnot) (hplain hlead (by simp) rfl)
  | group g =>
    have hread := parseTrimmed_grouped (r := r) h.wellFormed hlead
    rw [generalFilter_reread (h.reread hlen)] at hread
    exact iff_of_true hread (hplain hlead (by simp) rfl)

end Expression

end Roster
