import Roster.Proofs.Expression.Spelling

/-!
A text and the same text in parentheses. In parentheses it is one filter. By itself it may be a
path with a test behind it, whose segments say the same as that filter does.
-/

namespace Roster

namespace Expression

open Filter (Fails Stops Closes closes_cons closes_blanks stops_cons scanOperand scanTest
  scanEnclosed scanWithin scanAttribute greatestDepth)

variable {r : Registry}

/-! ### The same filter in both forms -/

/-- Segments that say the same as a filter: the filter itself; a selection; or a test behind an
extension or behind a selection, which the filter has in one. -/
inductive SaysSame (r : Registry) : List Segment → Filter → Prop where
  | whole {f : Filter} : SaysSame r [.test f.toText] f
  | selected {schema ext : Option String} {name : String} {f : Filter}
      (h : ReadUnder r schema ext) :
    SaysSame r ((ext.map Segment.name).toList ++ [.selection name f.toText])
      (.select ⟨schema, name, none⟩ f)
  | tested {schema ext : Option String} {name : String} {t : Filter} (h : ReadUnder r schema ext)
      (ht : t.testPath? = some (.ofName name)) :
    SaysSame r ((ext.map Segment.name).toList ++ [.test t.toText])
      (t.retarget ⟨schema, name, none⟩)
  | narrowed {schema ext : Option String} {name sub : String} {f t : Filter}
      (h : ReadUnder r schema ext) (ht : t.testPath? = some (.ofName sub)) :
    SaysSame r ((ext.map Segment.name).toList ++ [.selection name f.toText, .test t.toText])
      (.select ⟨schema, name, none⟩ (.and f.groupedIfOr t))

theorem normalizeFilter_eq_ok {cs : List Char} {filter : String} :
    normalizeFilter cs = .ok filter ↔
      ∃ f, Filter.parse (String.ofList cs) = .ok f ∧ f.bracketed.toText = filter := by
  rw [normalizeFilter]
  cases Filter.parse (String.ofList cs) <;> simp

theorem segmentsOf_name {name : String} {ps : List (String × Option String)} {qs : List Segment} :
    segmentsOf ((name, none) :: ps) = .ok qs ↔
      ∃ rest, segmentsOf ps = .ok rest ∧ qs = .name name :: rest := by
  simp only [segmentsOf, bind, Except.bind]
  cases segmentsOf ps <;> simp [eq_comm]

theorem segmentsOf_last {name : String} {qs : List Segment} :
    segmentsOf [(name, none)] = .ok qs ↔ qs = [.name name] := by
  refine segmentsOf_name.trans ?_
  constructor
  · rintro ⟨rest, hrest, rfl⟩
    cases hrest
    rfl
  · rintro rfl
    exact ⟨[], rfl, rfl⟩

theorem segmentsOf_brackets {name text : String} {ps : List (String × Option String)}
    {qs : List Segment} : segmentsOf ((name, some text) :: ps) = .ok qs ↔
      ∃ f rest, Filter.parse text = .ok f ∧ segmentsOf ps = .ok rest ∧
        qs = .selection name f.bracketed.toText :: rest := by
  simp only [segmentsOf, normalizeFilter, String.ofList_toList, bind, Except.bind, Except.map]
  cases Filter.parse text with
  | error e => simp
  | ok f => cases segmentsOf ps <;> simp [eq_comm]

theorem segmentsOf_filters {ps : List (String × Option String)} {qs : List Segment}
    (h : segmentsOf ps = .ok qs) : ∀ p ∈ ps, ∀ text ∈ p.2, ∃ f, Filter.parse text = .ok f := by
  induction ps generalizing qs with
  | nil => simp
  | cons p ps ih =>
    obtain ⟨name, filter⟩ := p
    cases filter with
    | none =>
      obtain ⟨rest, hrest, -⟩ := segmentsOf_name.mp h
      exact List.forall_mem_cons.mpr ⟨by simp, ih hrest⟩
    | some text =>
      obtain ⟨f, rest, hf, hrest, -⟩ := segmentsOf_brackets.mp h
      exact List.forall_mem_cons.mpr ⟨by simpa using ⟨f, hf⟩, ih hrest⟩

/-- Where the segments of components end with a name, it is that of an attribute. -/
theorem isAttributeName_last {ps : List (String × Option String)} {qs before front : List Segment}
    {last : String} (hps : ∀ p ∈ ps, isAttributeName p.1.toList = true) (hne : ps ≠ [])
    (hqs : segmentsOf ps = .ok qs) (hlast : before ++ qs = front ++ [.name last]) :
    isAttributeName last.toList = true := by
  obtain ⟨parts, rfl, hlength, hparts⟩ := segmentsOf_eq_ok hps hqs
  rcases List.eq_nil_or_concat parts with rfl | ⟨parts, ⟨name, filter⟩, rfl⟩
  · exact absurd (List.length_eq_zero_iff.mp hlength.symm) hne
  rw [List.concat_eq_append, List.map_append, ← List.append_assoc] at hlast
  obtain ⟨-, hname⟩ := List.append_inj' hlast rfl
  have hpart := (hparts (name, filter) (by simp)).name
  cases filter <;> cases hname
  exact hpart

theorem bracketed_groupedIfOr (f : Filter) : f.groupedIfOr.bracketed = f.bracketed.groupedIfOr := by
  cases f with
  | compare a op v => cases h : a.sub <;> simp [Filter.groupedIfOr, Filter.bracketed, h]
  | present a => cases h : a.sub <;> simp [Filter.groupedIfOr, Filter.bracketed, h]
  | _ => rfl

theorem bracketed_named {t : Filter} {name : String} (ht : t.testPath? = some (.ofName name)) :
    t.bracketed = t := by
  cases t <;> cases ht <;> rfl

/-- A test of a name, of another path in bracket form. -/
theorem bracketed_retarget {t : Filter} {schema : Option String} {name sub : String}
    (ht : t.testPath? = some (.ofName sub)) :
    (t.retarget ⟨schema, name, none⟩).bracketed = t.retarget ⟨schema, name, none⟩ ∧
      (t.retarget ⟨schema, name, some sub⟩).bracketed = .select ⟨schema, name, none⟩ t := by
  cases t <;> cases ht <;> exact ⟨rfl, rfl⟩

section Closed

variable {lead back s rest : List Char} {f : Filter} {schema ext : Option String}
variable {ps : List (String × Option String)} {qs segments : List Segment}

theorem generalFilter_closed {core : List Char} (h : generalFilter core = .ok segments)
    (hs : Closes s) (hscan : scanWithin (greatestDepth + 1) (core ++ s) = .ok (f, rest)) :
    SaysSame r segments f.bracketed ∧ ∃ blanks, skipBlanks blanks = [] ∧ rest = blanks ++ s := by
  obtain ⟨filter, hfilter, rfl⟩ := map_eq_ok.mp h
  obtain ⟨g, hread, rfl⟩ := normalizeFilter_eq_ok.mp hfilter
  obtain ⟨-, blanks, hg, hblanks⟩ := Filter.parse_eq_ok.mp hread
  rw [String.toList_ofList] at hg
  cases ((Filter.scanWithin_carries (Nat.le_refl _) hg).2 hs).symm.trans hscan
  exact ⟨.whole, blanks, hblanks, rfl⟩

theorem path_closed (hext : ReadUnder r schema ext) (h : Spelling lead schema ps) (hne : ps ≠ [])
    (hqs : segmentsOf ps = .ok qs)
    (hends : ((ext.map Segment.name).toList ++ qs).getLast?.any (·.filter?.isSome) = true)
    (hback : Closes back)
    (hscan : scanWithin (greatestDepth + 1) (lead ++ back) = .ok (f, rest)) :
    SaysSame r ((ext.map Segment.name).toList ++ qs) f.bracketed ∧ rest = back := by
  have hbracket : back.head? ≠ some '[' := by
    intro hhead
    obtain ⟨more, rfl⟩ := List.head?_eq_some_iff.mp hhead
    exact hback.head_ne (by decide) (by decide) more rfl
  -- the last component has brackets
  have hnamed (front : List Segment) (name : String) : qs ≠ front ++ [.name name] := by
    rintro rfl
    simp [Segment.filter?] at hends
  have hsingle : ∀ name, ps ≠ [(name, none)] := by
    rintro name rfl
    exact hnamed [] name (segmentsOf_last.mp hqs)
  obtain ⟨first, left, hfirst, hwhole⟩ := Filter.scanFilter_first hscan
  have hwalk := h.walk hne hback.stops hbracket (fun name hps => absurd hps (hsingle name))
    (segmentsOf_filters hqs) hfirst
  cases hwalk with
  | name _ => exact absurd rfl (hsingle _)
  | dotted _ =>
    obtain ⟨_, hrest, hsegments⟩ := segmentsOf_name.mp hqs
    obtain rfl := segmentsOf_last.mp hrest
    exact absurd hsegments (hnamed [_] _)
  | narrowed _ _ =>
    obtain ⟨_, _, -, hrest, hsegments⟩ := segmentsOf_brackets.mp hqs
    obtain rfl := segmentsOf_last.mp hrest
    exact absurd hsegments (hnamed [_] _)
  | selected hread =>
    rw [hback.keyword?_none (by decide), Option.getD_none] at hwhole
    obtain ⟨rfl, rfl⟩ := hwhole hback
    obtain ⟨g, _, hg, hnil, rfl⟩ := segmentsOf_brackets.mp hqs
    cases hnil
    cases hread.symm.trans hg
    exact ⟨.selected hext, rfl⟩

/-- A test behind a name is read the same behind any blanks, up to what closes. -/
theorem scanTest_behind {name : String} {behind : List Char} {t : Filter} {a : AttributePath}
    (hname : isAttributeName name.toList = true)
    (hread : Filter.parse (name ++ " " ++ String.ofList behind) = .ok t)
    (ht : t.testPath? = some a) (hs : Closes s)
    (hskip : skipBlanks back = skipBlanks (behind ++ s)) :
    sameName name "not" = false ∧ t.testPath? = some (.ofName name) ∧
      ∃ blanks, skipBlanks blanks = [] ∧ scanTest (.ofName name) back = .ok (t, blanks ++ s) := by
  have hwords : name ++ " " ++ String.ofList behind =
      String.ofList (name.toList ++ ' ' :: behind) := by
    simp [← String.toList_inj]
  rw [hwords] at hread
  obtain ⟨hnot, blanks, hscan, hblanks⟩ := Filter.parse_test hname hread ht
  refine ⟨hnot, ht.trans (congrArg some (Filter.scanTest_path hscan ht)), blanks, hblanks, ?_⟩
  have hcarried := (Filter.scanTest_carries (.ofName name) hscan).2 hs
  rwa [← Filter.scanTest_skip, List.cons_append, skipBlanks_space, ← hskip,
    Filter.scanTest_skip] at hcarried

theorem ReadUnder.attached_first (hr : OwnUrns r) (hext : ReadUnder r schema ext) (text : String) :
    attached (ext.map Segment.name).toList text =
      (ext.map Segment.name).toList ++ [.test text] := by
  cases hext with
  | extension hknown => simp [attached, (hr.known hknown).1]
  | plain => rfl
  | core _ => rfl

/-- A test of the last name that is attached to the components before it says the same as what is
read behind the path, when that test is read behind it too. -/
theorem Walk.says_attached (hr : OwnUrns r) (hext : ReadUnder r schema ext)
    (hnames : ∀ p ∈ ps, isAttributeName p.1.toList = true) {front : List Segment} {last : String}
    {t : Filter} {left more : List Char} (hwalk : Walk schema back ps f left)
    (hqs : segmentsOf ps = .ok qs)
    (hlast : (ext.map Segment.name).toList ++ qs = front ++ [.name last])
    (ht : t.testPath? = some (.ofName last))
    (htest : scanTest (.ofName last) back = .ok (t, more)) :
    SaysSame r (attached front t.toText) f.bracketed ∧ left = more := by
  -- the test is attached to the last component, and stands behind it in the filter
  have hends (before : List Segment) {name : String} (hqs : qs = before ++ [.name name]) :
      name = last ∧ front = (ext.map Segment.name).toList ++ before := by
    rw [hqs, ← List.append_assoc] at hlast
    obtain ⟨hfront, hname⟩ := List.append_inj' hlast rfl
    cases hname
    exact ⟨rfl, hfront.symm⟩
  have hretargeted {b : AttributePath} (hscan : scanTest b back = .ok (f, left)) :
      f = t.retarget b ∧ left = more := by
    rw [Filter.scanTest_retarget (.ofName last), htest] at hscan
    cases hscan
    exact ⟨rfl, rfl⟩
  cases hwalk with
  | name hscan =>
    obtain ⟨rfl, rfl⟩ := hends [] (segmentsOf_last.mp hqs)
    obtain ⟨rfl, rfl⟩ := hretargeted hscan
    rw [List.append_nil, hext.attached_first hr, (bracketed_retarget ht).1]
    exact ⟨.tested hext ht, rfl⟩
  | @dotted name sub _ _ hscan =>
    obtain ⟨_, hrest, rfl⟩ := segmentsOf_name.mp hqs
    obtain rfl := segmentsOf_last.mp hrest
    obtain ⟨rfl, rfl⟩ := hends [.name name] rfl
    obtain ⟨rfl, rfl⟩ := hretargeted hscan
    have hattached : attached ((ext.map Segment.name).toList ++ [.name name]) t.toText =
        (ext.map Segment.name).toList ++ [.selection name t.toText] := by
      simp [attached, isUrn_name (hnames (name, none) (by simp))]
    rw [hattached, (bracketed_retarget ht).2]
    exact ⟨.selected hext, rfl⟩
  | selected _ =>
    obtain ⟨_, _, -, hnil, rfl⟩ := segmentsOf_brackets.mp hqs
    cases hnil
    obtain ⟨-, hname⟩ := List.append_inj' hlast rfl
    cases hname
  | @narrowed name _ _ g _ _ hparse hscan =>
    obtain ⟨g', _, hg, hrest, rfl⟩ := segmentsOf_brackets.mp hqs
    obtain rfl := segmentsOf_last.mp hrest
    cases hparse.symm.trans hg
    obtain ⟨rfl, rfl⟩ := hends [.selection name g.bracketed.toText] rfl
    cases htest.symm.trans hscan
    have hattached : attached ((ext.map Segment.name).toList ++
        [.selection name g.bracketed.toText]) t.toText = (ext.map Segment.name).toList ++
          [.selection name g.bracketed.toText, .test t.toText] := by
      simp [attached]
    have hbracketed : (Filter.select ⟨schema, name, none⟩ (g.groupedIfOr.and t)).bracketed =
        .select ⟨schema, name, none⟩ (g.bracketed.groupedIfOr.and t) := by
      simp [Filter.bracketed, bracketed_groupedIfOr, bracketed_named ht]
    rw [hattached, hbracketed]
    exact ⟨.narrowed hext ht, rfl⟩

theorem attach_closed (hr : OwnUrns r) (hext : ReadUnder r schema ext)
    (h : Spelling lead schema ps) (hne : ps ≠ []) (hqs : segmentsOf ps = .ok qs)
    {behind : List Char}
    (hattach : attach? ((ext.map Segment.name).toList ++ qs) behind = some segments)
    (hs : Closes s) (hback : Stops back) (hbracket : back.head? ≠ some '[')
    (hskip : skipBlanks back = skipBlanks (behind ++ s))
    (hscan : scanWithin (greatestDepth + 1) (lead ++ back) = .ok (f, rest)) :
    SaysSame r segments f.bracketed ∧ ∃ blanks, skipBlanks blanks = [] ∧ rest = blanks ++ s := by
  obtain ⟨front, last, t, a, hlast, -, hread, hpath, rfl⟩ := attach?_eq_some hattach
  have hname := isAttributeName_last h.names hne hqs hlast
  obtain ⟨hnot, ht, blanks, hblanks, htest⟩ := scanTest_behind hname hread hpath hs hskip
  have hsingle : ∀ name, ps = [(name, none)] → sameName name "not" = false := by
    rintro name rfl
    rw [segmentsOf_last.mp hqs] at hlast
    obtain ⟨-, hlast⟩ := List.append_inj' hlast rfl
    cases hlast
    exact hnot
  obtain ⟨first, left, hfirst, hwhole⟩ := Filter.scanFilter_first hscan
  have hwalk := h.walk hne hback hbracket hsingle (segmentsOf_filters hqs) hfirst
  obtain ⟨hsame, rfl⟩ := hwalk.says_attached hr hext h.names hqs hlast ht htest
  obtain ⟨rfl, rfl⟩ := hwhole (closes_blanks hblanks hs)
  exact ⟨hsame, blanks, hblanks, rfl⟩

theorem unwrapped?_eq_some {lead inner : List Char} (h : unwrapped? lead = some inner) :
    ∃ inside, lead = '[' :: inside := by
  rw [← List.head?_eq_some_iff]
  by_contra hbracket
  rw [unwrapped?_eq_none hbracket] at h
  cases h

/-- What ends a leading path ends a name as well, and is no bracket. -/
theorem stops_ending (h : ∀ c ∈ back.head?, (isBlank c || c == '(' || c == '"') = true) :
    Stops back ∧ back.head? ≠ some '[' := by
  constructor
  · intro c hc
    by_contra hq
    rw [Bool.not_eq_false] at hq
    have hblank := not_isBlank_of_isQualifiedChar hq
    have hmark := isMark_of_isQualifiedChar hq
    simp [isMark] at hmark
    simpa [hblank, hmark] using h c hc
  · intro hhead
    exact absurd (h '[' hhead) (by decide)

/-- A text that is read by itself says the same as the filter that is read from it where something
closes behind it. -/
theorem parseTrimmed_closed (hr : OwnUrns r) {core : List Char}
    (h : parseTrimmed r core = .ok segments)
    (hends : segments.getLast?.any (·.filter?.isSome) = true) (hs : Closes s)
    (hscan : scanWithin (greatestDepth + 1) (core ++ s) = .ok (f, rest)) :
    SaysSame r segments f.bracketed ∧ ∃ blanks, skipBlanks blanks = [] ∧ rest = blanks ++ s := by
  obtain ⟨stop, cutLead, cutBack, hstop, hcutLead, hcutBack, h⟩ := parseTrimmed_read h
  obtain ⟨lead, back, b, rfl, rfl, hboundary, hopened, hback⟩ := leadEnd_split hstop
  have hletters := leadEnd_lead hstop (cut_front lead back)
  obtain rfl := Except.ok.inj ((cut_front lead back).symm.trans hcutLead)
  obtain rfl := Except.ok.inj ((cut_back lead back).symm.trans hcutBack)
  obtain ⟨front, behind, hbehind, hfront, hblanks⟩ := trimBlanks_split back
  have hall : lead ++ back ++ s = lead ++ (back ++ s) := List.append_assoc ..
  cases h with
  | filter hread => exact generalFilter_closed hread hs hscan
  | path hempty hread =>
    -- nothing but blanks is behind the path
    rw [hempty, List.nil_append] at hbehind
    have hskip : skipBlanks back = [] := by
      rw [hbehind, skipBlanks_blanks hfront, hblanks]
    cases hwrap : unwrapped? lead with
    | some inner =>
      -- no filter begins with a bracket
      obtain ⟨inside, rfl⟩ := unwrapped?_eq_some hwrap
      obtain ⟨_, _, hfirst, -⟩ := Filter.scanFilter_first hscan
      exact absurd hfirst (Filter.scanOperand_bracket_fails _ _ _)
    | none =>
      rw [hall] at hscan
      rcases attributePath_spelled hr hletters hboundary hopened hwrap hread with
        ⟨urn, -, rfl⟩ | ⟨schema, ext, ps, qs, hext, hspelling, hne, hqs, rfl⟩
      · simp [Segment.filter?] at hends
      · obtain ⟨hsame, rfl⟩ :=
          path_closed hext hspelling hne hqs hends (closes_blanks hskip hs) hscan
        exact ⟨hsame, back, hskip, rfl⟩
  | attached hwrap hrest hread hattach =>
    rcases attributePath_spelled hr hletters hboundary hopened hwrap hread with
      ⟨urn, hknown, rfl⟩ | ⟨schema, ext, ps, qs, hext, hspelling, hne, hqs, rfl⟩
    · simp [attach?, (hr.known hknown).1] at hattach
    · have hskip : skipBlanks (back ++ s) = skipBlanks (trimBlanks back ++ (behind ++ s)) := by
        conv_lhs => rw [hbehind, List.append_assoc, skipBlanks_blanks hfront, List.append_assoc]
      obtain ⟨hstops, hbracket⟩ := stops_ending hback
      obtain ⟨c, more, rfl⟩ : ∃ c more, back = c :: more := by
        refine List.exists_cons_of_ne_nil ?_
        rintro rfl
        exact hrest rfl
      rw [hall] at hscan
      obtain ⟨hsame, blanks, hblanks', rfl⟩ :=
        attach_closed hr hext hspelling hne hqs hattach (closes_blanks hblanks hs)
          (stops_cons (hstops c rfl)) (by simpa using hbracket) hskip hscan
      refine ⟨hsame, blanks ++ behind, ?_, (List.append_assoc ..).symm⟩
      rw [skipBlanks_blanks hblanks', hblanks]

end Closed

theorem trimmed_parentheses (text : String) : Trimmed ("(" ++ text ++ ")").toList := by
  have hchars : ("(" ++ text ++ ")").toList = '(' :: (text.toList ++ [')']) := by simp
  have hvisible : EndsVisible ("(" ++ text ++ ")").toList :=
    ⟨'(' :: text.toList, ')', by simp [hchars], by decide⟩
  refine hvisible.trimmed ?_
  rw [hchars]
  rintro c ⟨⟩
  decide

/-- What begins with a parenthesis is read as one filter. -/
theorem parse_opening {text : String} {rest : List Char} {e : Expression}
    (htext : text.toList = '(' :: rest) (htrim : Trimmed text.toList)
    (h : parse r text = .ok e) :
    ∃ g, Filter.parse text = .ok g ∧ e = ⟨[.test g.bracketed.toText]⟩ := by
  obtain ⟨-, h⟩ := (parse_visible htrim (by simp [htext])).mp h
  -- the leading path is empty
  obtain ⟨stop, hstop, -⟩ := bind_eq_ok.mp h
  rw [htext] at hstop
  obtain rfl : stop = 0 :=
    leadEnd_ends .nil (by decide) (by decide) (hstop : leadEnd ([] ++ _) = .ok stop)
  have hgroup : parseTrimmed r ([] ++ '(' :: rest) = generalFilter _ := parseTrimmed_lead hstop
  rw [htext, ← List.nil_append ('(' :: rest), hgroup] at h
  obtain ⟨filter, hfilter, hsegments⟩ := map_eq_ok.mp h
  obtain ⟨g, hg, rfl⟩ := normalizeFilter_eq_ok.mp hfilter
  rw [List.nil_append, ← htext, String.ofList_toList] at hg
  obtain ⟨segments⟩ := e
  exact ⟨g, hg, congrArg Expression.mk hsegments.symm⟩

/-- A filter text in parentheses is one group, and says the same as the filter text. -/
theorem parse_parenthesized (hr : OwnUrns r) {text : String} {e e' : Expression}
    (hread : parse r text = .ok e) (hends : e.endsWithFilter = true)
    (hread' : parse r ("(" ++ text ++ ")") = .ok e') :
    ∃ f : Filter, f.WellFormed ∧ SaysSame r e.segments f ∧
      e'.segments = [.test (Filter.group f).toText] := by
  have hchars : ("(" ++ text ++ ")").toList = '(' :: (text.toList ++ [')']) := by simp
  obtain ⟨g, hg, rfl⟩ := parse_opening hchars (trimmed_parentheses text) hread'
  rw [← String.ofList_toList (s := "(" ++ text ++ ")"), hchars] at hg
  obtain ⟨f, rest, hscan, hgroup⟩ := Filter.parse_group hg
  -- the text by itself is read without the blanks at its ends
  obtain ⟨-, hself⟩ := guard_eq_ok.mp hread
  obtain ⟨-, hself⟩ := guard_eq_ok.mp hself
  obtain ⟨segments, hparsed, rfl⟩ := map_eq_ok.mp hself
  obtain ⟨front, behind, hsplit, hfront, hbehind⟩ := trimBlanks_split text.toList
  have hcore : scanWithin (greatestDepth + 1) (trimBlanks text.toList ++ (behind ++ [')'])) =
      .ok (f, rest) := by
    have hskip : skipBlanks (text.toList ++ [')']) =
        skipBlanks (trimBlanks text.toList ++ (behind ++ [')'])) := by
      conv_lhs => rw [hsplit, List.append_assoc, skipBlanks_blanks hfront, List.append_assoc]
    rw [scanWithin, ← Filter.scanFilter_skip] at hscan ⊢
    rwa [← hskip]
  obtain ⟨hsame, blanks, hblanks, rfl⟩ :=
    parseTrimmed_closed hr hparsed hends (closes_blanks hbehind (closes_cons (.inl rfl) [])) hcore
  have hrest : skipBlanks (blanks ++ (behind ++ [')'])) = [')'] := by
    rw [skipBlanks_blanks hblanks, skipBlanks_blanks hbehind]
    exact skipBlanks_cons [] (by decide)
  refine ⟨f.bracketed, (Filter.scanWithin_gives _ hscan).bracketed, hsame, ?_⟩
  rw [hgroup hrest]
  rfl

end Expression

end Roster
