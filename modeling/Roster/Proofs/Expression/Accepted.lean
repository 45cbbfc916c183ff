import Roster.Proofs.Expression.Consumed
import Roster.Proofs.Expression.Enclosed
import Roster.Proofs.Filter.Front

/-!
Filters as expressions. An expression is split at its dots before its filters are read, and that
split is stricter about blanks and brackets than the reader of filters is. A filter without URNs is
accepted exactly when its leading path is one of names joined by dots, or is passed over.
-/

namespace Roster

namespace Filter

/-- Brackets are closed by the first bracket that a filter can end at. -/
theorem enclosed_unique {xs ys rest more : List Char} {f g : Filter}
    (hf : parse (String.ofList xs) = .ok f) (hg : parse (String.ofList ys) = .ok g)
    (h : xs ++ ']' :: rest = ys ++ ']' :: more) : rest = more := by
  have hread {zs : List Char} {i : Filter} (hi : parse (String.ofList zs) = .ok i)
      (after : List Char) :
      ∃ blanks, skipBlanks blanks = [] ∧
        scanWithin (greatestDepth + 1) (zs ++ ']' :: after) = .ok (i, blanks ++ ']' :: after) := by
    obtain ⟨-, blanks, hscan, hblanks⟩ := parse_eq_ok.mp hi
    rw [String.toList_ofList] at hscan
    exact ⟨blanks, hblanks, (scanWithin_carries le_rfl hscan).2 (closes_cons (.inr rfl) after)⟩
  obtain ⟨blanks, hblanks, hxs⟩ := hread hf rest
  obtain ⟨blanks', hblanks', hys⟩ := hread hg more
  rw [h, hys] at hxs
  have hbehind := congrArg skipBlanks (Prod.mk.inj (Except.ok.inj hxs)).2
  rw [skipBlanks_blanks hblanks, skipBlanks_blanks hblanks'] at hbehind
  exact (List.cons.inj hbehind).2.symm

end Filter

namespace Expression

open Filter (scanName scanPath scanTest scanEnclosed scanAttribute scanOperand scanFilter scanWithin
  keyword? greatestDepth greatestLength)

variable {r : Registry}

/-! ### The leading path -/

/-- A character that ends the leading path outside of brackets. -/
def endsLead (c : Char) : Bool :=
  isBlank c || c == '(' || c == '"'

/-- The text up to the first blank, parenthesis or quote outside brackets. -/
def leadingPath (text : List Char) : List Char :=
  (leadEnd text >>= cut text 0).toOption.getD []

theorem leadingPath_append {front back : List Char} (hf : Solid front)
    (hall : Balanced (front ++ back)) (hstart : ∀ c ∈ back.head?, endsLead c = true) :
    leadingPath (front ++ back) = front := by
  simp only [leadingPath, leadEnd_append hf hall hstart, bind, Except.bind, cut_front]
  rfl

/-- Balanced text is a leading path and what ends it. -/
theorem Balanced.lead {cs : List Char} (h : Balanced cs) :
    ∃ front back, cs = front ++ back ∧ Solid front ∧ ∀ c ∈ back.head?, endsLead c = true := by
  induction h with
  | nil => exact ⟨[], [], rfl, .nil, by simp⟩
  | @plain c hc =>
    cases hblank : isBlank c with
    | true => exact ⟨[], [c], rfl, .nil, by simp [endsLead, hblank]⟩
    | false => exact ⟨[c], [], rfl, .plain hc hblank, by simp⟩
  | @append xs ys _ _ hx hy =>
    obtain ⟨front, back, rfl, hfront, hback⟩ := hx
    cases back with
    | nil =>
      obtain ⟨more, behind, rfl, hmore, hbehind⟩ := hy
      exact ⟨front ++ more, behind, by simp, hfront.append hmore, hbehind⟩
    | cons c back => exact ⟨front, c :: back ++ ys, by simp, hfront, hback⟩
  | quoted => exact ⟨[], _, rfl, .nil, by simp [endsLead]⟩
  | @brackets cs h => exact ⟨'[' :: (cs ++ [']']), [], by simp, .brackets h, by simp⟩
  | parentheses => exact ⟨[], _, rfl, .nil, by simp [endsLead]⟩

/-- Something other than a dot stands right behind the brackets of the first name. -/
def IsGlued (lead : List Char) : Prop :=
  ∃ (name inner : List Char) (g : Filter) (c : Char) (more : List Char),
    isAttributeName name = true ∧ Filter.parse (String.ofList inner) = .ok g ∧
      lead = name ++ '[' :: (inner ++ ']' :: c :: more) ∧ c ≠ '.'

/-- How the text of a filter without URNs begins: with a parenthesis; with names joined by dots
that end the leading path, or with a dot that ends it; or with something right behind brackets. -/
inductive Begins : List Char → Prop where
  | group (rest : List Char) : Begins ('(' :: rest)
  | path {ps : List (String × Option String)} {qs : List Segment} {rest : List Char} (hne : ps ≠ [])
      (hps : ∀ p ∈ ps, IsPart p) (hqs : segmentsOf ps = .ok qs)
      (hrest : ∀ c ∈ rest.head?, endsLead c = true) : Begins (joinParts ps ++ rest)
  | dot {ps : List (String × Option String)} {c : Char} {rest : List Char} (hne : ps ≠ [])
      (hps : ∀ p ∈ ps, IsPart p) (hc : isBlank c = true) : Begins (joinParts ps ++ '.' :: c :: rest)
  | glued {name inner : List Char} {g : Filter} {c : Char} {rest : List Char}
      (hname : isAttributeName name = true) (hinner : Filter.parse (String.ofList inner) = .ok g)
      (hc : c ≠ '.') (hlead : endsLead c = false) :
      Begins (name ++ '[' :: (inner ++ ']' :: c :: rest))

/-- A part with the text of a filter in its brackets, if any. -/
theorem isPart_name {name : String} (hname : isAttributeName name.toList = true) :
    IsPart (name, none) :=
  ⟨hname, by simp⟩

theorem isPart_brackets {name : String} {inner : List Char} {g : Filter}
    (hname : isAttributeName name.toList = true)
    (hinner : Filter.parse (String.ofList inner) = .ok g) :
    IsPart (name, some (String.ofList inner)) :=
  ⟨hname, by simpa using balanced_of_parse hinner⟩

theorem endsLead_of_isBlank {c : Char} (h : isBlank c = true) : endsLead c = true := by
  simp [endsLead, h]

/-- What stands behind the brackets of a name, as far as it is read. -/
theorem begins_brackets {name : String} {inner behind left : List Char} {a : AttributePath}
    {f g : Filter} (hname : isAttributeName name.toList = true)
    (hinner : Filter.parse (String.ofList inner) = .ok g)
    (hbehind : Filter.behindSelection a g behind = .ok (f, left)) :
    Begins (name.toList ++ '[' :: (inner ++ ']' :: behind)) := by
  have hbrackets (behind : List Char) : name.toList ++ '[' :: (inner ++ ']' :: behind) =
      joinParts [(name, some (String.ofList inner))] ++ behind := by
    simp [joinParts, partText]
  have hpart := isPart_brackets hname hinner
  have hqs : segmentsOf [(name, some (String.ofList inner))] =
      .ok [.selection name g.bracketed.toText] :=
    segmentsOf_brackets.mpr ⟨g, [], hinner, rfl, rfl⟩
  cases Filter.behindSelection_iff.mp hbehind with
  | plain hdot =>
    cases behind with
    | nil =>
      rw [hbrackets]
      exact .path (by simp) (by simpa using hpart) hqs (by simp)
    | cons c behind =>
      have hc : c ≠ '.' := by
        rintro rfl
        exact hdot behind rfl
      cases hlead : endsLead c with
      | false => exact .glued hname hinner hc hlead
      | true =>
        rw [hbrackets]
        exact .path (by simp) (by simpa using hpart) hqs (by simpa using hlead)
  | @dotted dotted _ _ sub _ hsub htest =>
    obtain ⟨hskip, hsubname, hstop⟩ := Filter.scanName_split hsub
    obtain ⟨d, more, rfl, hd⟩ := Filter.scanTest_head htest hstop
    rw [hbrackets]
    cases dotted with
    | nil =>
      have hnil := List.append_eq_nil_iff.mp hskip.symm
      cases hnil.2
    | cons e dotted =>
      cases he : isBlank e with
      | true => exact .dot (by simp) (by simpa using hpart) he
      | false =>
        rw [skipBlanks_cons dotted he] at hskip
        have hjoin : joinParts [(name, some (String.ofList inner))] ++ '.' :: e :: dotted =
            joinParts [(name, some (String.ofList inner)), (sub, none)] ++ d :: more := by
          simp [joinParts, partText, hskip]
        rw [hjoin]
        refine .path (by simp) (by simpa using ⟨hpart, isPart_name hsubname⟩)
          (segmentsOf_brackets.mpr ⟨g, _, hinner, segmentsOf_last.mpr rfl, rfl⟩) ?_
        simpa using endsLead_of_isBlank hd

/-- A dotted name, as far as it is read. -/
theorem begins_dotted {name sub : String} {dotted after : List Char}
    (hname : isAttributeName name.toList = true) (hsub : scanName dotted = .ok (sub, after))
    {c : Char} {more : List Char} (hafter : after = c :: more) (hc : isBlank c = true) :
    Begins (name.toList ++ '.' :: dotted) := by
  have hpart := isPart_name hname
  obtain ⟨hskip, hsubname, -⟩ := Filter.scanName_split hsub
  cases dotted with
  | nil =>
    have hnil := List.append_eq_nil_iff.mp hskip.symm
    exact absurd hnil.1 (Filter.ne_nil_of_isAttributeName hsubname)
  | cons d dotted =>
    cases hd : isBlank d with
    | true =>
      have hparts : ∀ p ∈ [(name, none)], IsPart p := by simpa using hpart
      exact .dot (by simp) hparts hd
    | false =>
      rw [skipBlanks_cons dotted hd] at hskip
      have hjoin : name.toList ++ '.' :: d :: dotted =
          joinParts [(name, none), (sub, none)] ++ c :: more := by
        simp [joinParts, partText, hskip, hafter]
      rw [hjoin]
      refine .path (by simp) (by simpa using ⟨hpart, isPart_name hsubname⟩)
        (segmentsOf_name.mpr ⟨_, segmentsOf_last.mpr rfl, rfl⟩) ?_
      simpa using endsLead_of_isBlank hc

theorem begins_attribute {cs left : List Char} {first : Filter}
    (hcs : ∀ c ∈ cs.head?, isBlank c = false) (hlen : utf8Length cs ≤ greatestLength)
    (h : scanAttribute (scanWithin greatestDepth) cs = .ok (first, left))
    (hplain : ∀ a ∈ first.leftmost.paths, a.schema = none) : Begins cs := by
  obtain ⟨a, rest, hpath, hmem⟩ := Filter.scanAttribute_path h
  obtain ⟨more, hname, hrest⟩ := Filter.scanPath_split hpath (hplain a hmem)
  rw [skipBlanks_of_head hcs] at hname
  obtain ⟨htext, hletters, hstop⟩ := Filter.scanName_split hname
  rw [skipBlanks_of_head hcs] at htext
  cases Filter.scanAttribute_iff.mp h with
  | @selected opened _ _ _ _ _ hfound hsub hinner hbehind =>
    cases hpath.symm.trans hfound
    simp only [hsub] at hrest
    obtain ⟨rfl, -⟩ := hrest
    have hopened : utf8Length opened ≤ greatestLength := by
      rw [htext, utf8Length_append, utf8Length_cons] at hlen
      omega
    obtain ⟨inner, rfl, hread⟩ :=
      Filter.scanEnclosed_text (Nat.le_succ greatestDepth) (.inr rfl) hopened hinner
    rw [htext]
    exact begins_brackets hletters hread hbehind
  | tested hfound hbracket htest =>
    cases hpath.symm.trans hfound
    rw [htext]
    cases hsub : a.sub with
    | some sub =>
      simp only [hsub] at hrest
      obtain ⟨dotted, rfl, hdotted⟩ := hrest
      obtain ⟨-, -, hend⟩ := Filter.scanName_split hdotted
      obtain ⟨c, behind, hbehind, hc⟩ := Filter.scanTest_head htest hend
      exact begins_dotted hletters hdotted hbehind hc
    | none =>
      simp only [hsub] at hrest
      obtain ⟨rfl, -⟩ := hrest
      obtain ⟨c, behind, rfl, hc⟩ := Filter.scanTest_head htest hstop
      have hparts : ∀ p ∈ [(a.name, none)], IsPart p := by simpa using isPart_name hletters
      exact .path (by simp) hparts (segmentsOf_last.mpr rfl)
        (by simpa using endsLead_of_isBlank hc)

/-- How the text of a filter without URNs begins. -/
theorem begins_of_parse {cs : List Char} {f : Filter} (hcs : ∀ c ∈ cs.head?, isBlank c = false)
    (hread : Filter.parse (String.ofList cs) = .ok f) (hplain : ∀ a ∈ f.paths, a.schema = none) :
    Begins cs := by
  obtain ⟨hlen, rest, hscan, -⟩ := Filter.parse_eq_ok.mp hread
  rw [String.toList_ofList] at hlen hscan
  obtain ⟨first, left, hfirst, hleftmost⟩ := Filter.scanFilter_leftmost hscan
  have hpaths : ∀ a ∈ first.leftmost.paths, a.schema = none :=
    fun a ha => hplain a (f.paths_leftmost (hleftmost ▸ ha))
  cases Filter.scanOperand_iff.mp hfirst with
  | @negated more _ _ _ hword hopen _ =>
    -- for the leading path the keyword is a name
    obtain ⟨front, htext, hfront, -⟩ := Filter.keyword?_iff.mp hword
    rw [skipBlanks_of_head hcs] at htext
    have hw : Filter.IsKeyword "not" := by decide
    have hletters : front.all isLetter = true :=
      List.all_eq_true.mpr fun c hc => hw.letter hfront hc
    have hname := Filter.isAttributeName_of_letters (hw.written hfront) hletters
    have hjoin : cs = joinParts [(String.ofList front, none)] ++ more := by
      simp [joinParts, partText, htext]
    rw [hjoin]
    have hpart : IsPart (String.ofList front, none) := isPart_name (by simpa)
    refine .path (by simp) (by simpa using hpart) (segmentsOf_last.mpr rfl) fun c hc => ?_
    cases hblank : isBlank c with
    | true => exact endsLead_of_isBlank hblank
    | false =>
      rw [skipBlanks_of_head fun d hd => by cases hc.symm.trans hd; exact hblank] at hopen
      cases hopen ▸ hc
      rfl
  | grouped hword hopen hinner =>
    rw [skipBlanks_of_head hcs] at hopen
    rw [hopen]
    exact .group _
  | atPath hword hopen hread =>
    rw [skipBlanks_of_head hcs] at hread
    exact begins_attribute hcs hlen hread hpaths

/-! ### Reading what begins so -/

/-- Joined components do not end with a dot. -/
theorem joinParts_last {ps : List (String × Option String)} (hne : ps ≠ [])
    (hps : ∀ p ∈ ps, isAttributeName p.1.toList = true) : (joinParts ps).getLast? ≠ some '.' := by
  obtain ⟨front, ⟨name, filter⟩, rfl⟩ := (List.eq_nil_or_concat' ps).resolve_left hne
  have hname : isAttributeName name.toList = true := hps (name, filter) (by simp)
  have hnonempty := Filter.ne_nil_of_isAttributeName hname
  rw [joinParts_snoc]
  cases filter with
  | none =>
    rw [partText, List.getLast?_append_of_ne_nil _ hnonempty]
    intro hlast
    exact Filter.not_mem_of_isAttributeName hname (c := '.') rfl (List.mem_of_getLast? hlast)
  | some text =>
    have hclose : dotted front ++ partText (name, some text) =
        (dotted front ++ name.toList ++ '[' :: text.toList) ++ [']'] := by
      simp [partText]
    rw [hclose, List.getLast?_concat]
    simp

/-- The first name of a text in which a bracket or a dot follows it. -/
theorem name_unique {name other rest more : List Char} (hname : isAttributeName name = true)
    (hother : isAttributeName other = true) (hrest : ∀ c ∈ rest.head?, c = '[' ∨ c = '.')
    (hmore : ∀ c ∈ more.head?, c = '[' ∨ c = '.') (h : name ++ rest = other ++ more) :
    name = other ∧ rest = more := by
  have hchars {word : List Char} (hword : isAttributeName word = true) :
      word.all (fun c => c != '[' && c != '.') = true := by
    refine List.all_eq_true.mpr fun c hc => ?_
    simp only [Bool.and_eq_true, bne_iff_ne]
    constructor
    · rintro rfl
      exact Filter.not_mem_of_isAttributeName hword (c := '[') rfl hc
    · rintro rfl
      exact Filter.not_mem_of_isAttributeName hword (c := '.') rfl hc
  have hstop {after : List Char} (hafter : ∀ c ∈ after.head?, c = '[' ∨ c = '.') :
      ∀ c ∈ after.head?, (c != '[' && c != '.') = false := by
    intro c hc
    rcases hafter c hc with rfl | rfl <;> rfl
  have hfront := congrArg (List.takeWhile fun c => c != '[' && c != '.') h
  rw [takeWhile_append_stop (hchars hname) (hstop hrest),
    takeWhile_append_stop (hchars hother) (hstop hmore)] at hfront
  subst hfront
  exact ⟨rfl, List.append_cancel_left h⟩

/-- Behind the brackets of a component stands a dot, if anything. -/
theorem joinParts_not_glued {ps : List (String × Option String)} {qs : List Segment}
    (hps : ∀ p ∈ ps, isAttributeName p.1.toList = true) (hqs : segmentsOf ps = .ok qs) :
    ¬IsGlued (joinParts ps) := by
  rintro ⟨name, inner, g, c, more, hname, hinner, hjoin, hc⟩
  cases ps with
  | nil =>
    have hempty := congrArg List.length hjoin
    simp [joinParts] at hempty
  | cons p ps =>
    obtain ⟨first, filter⟩ := p
    obtain ⟨rest, htext, hrest⟩ := joinParts_name (first, filter) ps
    have hfirst : isAttributeName first.toList = true := hps _ List.mem_cons_self
    obtain ⟨-, rfl⟩ := name_unique hfirst hname hrest (by simp) (htext.symm.trans hjoin)
    -- the brackets are those of the first component
    cases filter with
    | none =>
      cases ps with
      | nil => simp [joinParts, partText] at htext
      | cons q ps => simp [joinParts, partText] at htext
    | some text =>
      obtain ⟨f, qs', hf, -, -⟩ := segmentsOf_brackets.mp hqs
      rw [← String.ofList_toList (s := text)] at hf
      cases ps with
      | nil =>
        have hsame : text.toList ++ ']' :: [] = inner ++ ']' :: c :: more := by
          simpa [joinParts, partText] using htext
        cases Filter.enclosed_unique hf hinner hsame
      | cons q ps =>
        have hsame : text.toList ++ ']' :: '.' :: joinParts (q :: ps) =
            inner ++ ']' :: c :: more := by
          simpa [joinParts, partText] using htext
        cases Filter.enclosed_unique hf hinner hsame
        exact hc rfl

/-- What begins with a name, a bracket or a dot behind it, is not read under a schema. -/
theorem named_front {name rest : List Char} (hname : isAttributeName name = true)
    (hrest : ∀ c ∈ rest.head?, c = '[' ∨ c = '.') : name ++ rest ≠ [] ∧
      (name ++ rest).head? ≠ some '[' ∧ beginsWith "urn:".toList (name ++ rest) = false := by
  obtain ⟨c, more, rfl⟩ := List.exists_cons_of_ne_nil (Filter.ne_nil_of_isAttributeName hname)
  refine ⟨by simp, ?_, Filter.beginsWith_urn_name hname fun d hd => ?_⟩
  · rintro ⟨⟩
    exact Filter.not_mem_of_isAttributeName hname (c := '[') rfl List.mem_cons_self
  · rcases hrest d hd with rfl | rfl <;> decide

theorem attributePath_joined {name rest : List Char} {segments : List Segment}
    (hname : isAttributeName name = true) (hrest : ∀ c ∈ rest.head?, c = '[' ∨ c = '.')
    (hlead : Solid (name ++ rest)) (h : attributePath r (name ++ rest) = .ok segments) :
    ∃ ps, name ++ rest = joinParts ps ∧ ps ≠ [] ∧
      (∀ p ∈ ps, isAttributeName p.1.toList = true) ∧ segmentsOf ps = .ok segments := by
  obtain ⟨-, hhead, hurn⟩ := named_front hname hrest
  cases attributePath_read h with
  | bracketed hwrap => cases (unwrapped?_eq_none hhead).symm.trans hwrap
  | extension _ hurn' => cases hurn.symm.trans hurn'
  | behind _ hurn' => cases hurn.symm.trans hurn'
  | @plain ps _ _ _ hps hsegments =>
    obtain ⟨hne, hnames⟩ := components_names hps
    have hscan := hlead.scan_boundary (b := ⟨0, none, false, [], none⟩) rfl rfl
    exact ⟨ps, components_eq_ok hps rfl hscan rfl, hne, hnames, hsegments⟩

/-! ### Reading a filter -/

theorem generalFilter_reads {cs : List Char} {f : Filter}
    (h : Filter.parse (String.ofList cs) = .ok f) :
    generalFilter cs = .ok [.test f.bracketed.toText] := by
  rw [generalFilter, normalizeFilter_eq_ok.mpr ⟨f, h, rfl⟩]
  rfl

/-- A text that is a filter is refused only for its leading path, which is looked at first. -/
theorem parseTrimmed_reads {front back : List Char} {f : Filter} (hf : Solid front)
    (hne : front ≠ []) (hhead : front.head? ≠ some '[')
    (hback : ∀ c ∈ back.head?, endsLead c = true) (htrim : Trimmed (front ++ back))
    (hread : Filter.parse (String.ofList (front ++ back)) = .ok f) :
    (∃ segments, parseTrimmed r (front ++ back) = .ok segments) ↔
      (∃ segments, attributePath r front = .ok segments) ∨
        front.getLast? = some ']' ∧ back ≠ [] := by
  have hbalanced : Balanced (front ++ back) := by simpa using balanced_of_parse hread
  have hgeneral := generalFilter_reads hread
  have hblank : trimBlanks back = [] ↔ back = [] := by
    refine ⟨fun htrimmed => ?_, fun hnil => by rw [hnil]; rfl⟩
    obtain ⟨before, behind, hsplit, hbefore, hbehind⟩ := trimBlanks_split back
    rw [htrimmed, List.nil_append] at hsplit
    cases hlast : back.getLast? with
    | none => exact List.getLast?_eq_none_iff.mp hlast
    | some c =>
      have hvisible := htrim.last c (by rw [List.getLast?_append, hlast]; rfl)
      have hall : skipBlanks back = [] := by rw [hsplit, skipBlanks_blanks hbefore, hbehind]
      rw [skipBlanks_eq_nil.mp hall c (List.mem_of_getLast? hlast)] at hvisible
      cases hvisible
  have hattach : (∃ segments, attachOr r (front ++ back) front (trimBlanks back) = .ok segments) ↔
      ∃ segments, attributePath r front = .ok segments := by
    constructor
    · rintro ⟨segments, h⟩
      obtain ⟨found, hfound, -⟩ := bind_eq_ok.mp h
      exact ⟨found, hfound⟩
    · rintro ⟨found, hfound⟩
      simp only [attachOr, hfound, hgeneral, bind, Except.bind]
      cases attach? found (trimBlanks back) with
      | none => exact ⟨_, rfl⟩
      | some segments => exact ⟨_, rfl⟩
  rw [parseTrimmed_lead (leadEnd_append hf hbalanced hback)]
  by_cases hnil : back = []
  · simp [hne, hnil, show trimBlanks [] = [] from rfl]
  · have hrest : trimBlanks back ≠ [] := fun h => hnil (hblank.mp h)
    by_cases hlast : front.getLast? = some ']'
    · simp [hne, hnil, hrest, hhead, hlast, hgeneral]
    · simpa [hne, hnil, hrest, hhead, hlast] using hattach

/-- What stands right behind brackets belongs to the leading path. -/
theorem lead_brackets {pre rest : List Char} {c : Char} (hpre : Solid pre)
    (hall : Balanced (pre ++ c :: rest)) (hc : endsLead c = false) :
    ∃ more back, rest = more ++ back ∧ Solid (pre ++ c :: more) ∧
      ∀ d ∈ back.head?, endsLead d = true := by
  obtain ⟨front, back, hsplit, hfront, hback⟩ := hall.lead
  rcases List.append_eq_append_iff.mp hsplit with ⟨more, rfl, hmore⟩ | ⟨more, rfl, hmore⟩
  · cases more with
    | nil =>
      have hends := hback c (by rw [← List.nil_append back, ← hmore]; rfl)
      rw [hc] at hends
      cases hends
    | cons d more =>
      cases hmore
      exact ⟨more, back, rfl, hfront, hback⟩
  · -- the leading path of `pre` is all of it
    cases more with
    | nil =>
      have hends := hback c (by rw [hmore]; rfl)
      rw [hc] at hends
      cases hends
    | cons d more =>
      have hbalanced : Balanced (front ++ d :: more ++ []) := by simpa using hpre.balanced
      have hwhole := leadEnd_append hpre hbalanced (by simp)
      have hstart : ∀ e ∈ (d :: more).head?, endsLead e = true :=
        fun e he => hback e (by rw [hmore]; exact he)
      have hends := leadEnd_append hfront hpre.balanced hstart
      rw [List.append_nil, hends, utf8Length_append, utf8Length_cons] at hwhole
      have hlength := Except.ok.inj hwhole
      have hpositive := d.utf8Size_pos
      omega

/-- What the split at dots asks of the leading path of a text: that it does not end with a dot, and
that nothing other than a dot stands right behind the brackets of its first name, unless it ends
with brackets and more follows, for then it is not looked at. -/
def Splits (core : List Char) : Prop :=
  (leadingPath core).getLast? ≠ some '.' ∧
    (IsGlued (leadingPath core) → (leadingPath core).getLast? = some ']' ∧ leadingPath core ≠ core)

section Reading

variable {core : List Char} {f : Filter} {ps : List (String × Option String)}

theorem parseTrimmed_group {rest : List Char}
    (hread : Filter.parse (String.ofList ('(' :: rest)) = .ok f) :
    (∃ segments, parseTrimmed r ('(' :: rest) = .ok segments) ∧ Splits ('(' :: rest) := by
  have hbalanced : Balanced ([] ++ '(' :: rest) := by simpa using balanced_of_parse hread
  have hlead : leadingPath ([] ++ '(' :: rest) = [] :=
    leadingPath_append .nil hbalanced (by simp [endsLead])
  have hgroup : parseTrimmed r ([] ++ '(' :: rest) = generalFilter ('(' :: rest) :=
    parseTrimmed_lead (leadEnd_append .nil hbalanced (by simp))
  have hnot : ¬IsGlued [] := by
    rintro ⟨name, inner, g, c, more, -, -, htext, -⟩
    simp at htext
  rw [List.nil_append] at hlead
  refine ⟨⟨_, hgroup.trans (generalFilter_reads hread)⟩, ?_⟩
  rw [Splits, hlead]
  exact ⟨by simp, fun h => absurd h hnot⟩

theorem parseTrimmed_parts {qs : List Segment} {back : List Char} (hne : ps ≠ [])
    (hps : ∀ p ∈ ps, IsPart p) (hqs : segmentsOf ps = .ok qs)
    (hback : ∀ c ∈ back.head?, endsLead c = true) (htrim : Trimmed (joinParts ps ++ back))
    (hread : Filter.parse (String.ofList (joinParts ps ++ back)) = .ok f) :
    (∃ segments, parseTrimmed r (joinParts ps ++ back) = .ok segments) ∧
      Splits (joinParts ps ++ back) := by
  obtain ⟨p, ps, rfl⟩ := List.exists_cons_of_ne_nil hne
  obtain ⟨more, htext, hmore⟩ := joinParts_name p ps
  have hnames : ∀ q ∈ p :: ps, isAttributeName q.1.toList = true := fun q hq => (hps q hq).name
  obtain ⟨hfirst, hhead, -⟩ := named_front (hnames p List.mem_cons_self) hmore
  rw [← htext] at hfirst hhead
  have hsolid := solid_joinParts hps
  have hlead := leadingPath_append hsolid (by simpa using balanced_of_parse hread) hback
  refine ⟨(parseTrimmed_reads hsolid hfirst hhead hback htrim hread).mpr (.inl ?_), ?_⟩
  · exact ⟨qs, attributePath_names hne hps hqs⟩
  · rw [Splits, hlead]
    exact ⟨joinParts_last hne hnames, fun h => absurd h (joinParts_not_glued hnames hqs)⟩

/-- Components do not end with a dot. -/
theorem parseTrimmed_dot {back : List Char} (hne : ps ≠ []) (hps : ∀ p ∈ ps, IsPart p)
    (hback : ∀ c ∈ back.head?, endsLead c = true) (htrim : Trimmed (joinParts ps ++ '.' :: back))
    (hread : Filter.parse (String.ofList (joinParts ps ++ '.' :: back)) = .ok f) :
    (¬∃ segments, parseTrimmed r (joinParts ps ++ '.' :: back) = .ok segments) ∧
      ¬Splits (joinParts ps ++ '.' :: back) := by
  obtain ⟨p, ps, rfl⟩ := List.exists_cons_of_ne_nil hne
  obtain ⟨more, htext, hmore⟩ := joinParts_name p ps
  have hname := (hps p List.mem_cons_self).name
  have hdot : ∀ d ∈ (more ++ ['.']).head?, d = '[' ∨ d = '.' := by
    cases more with
    | nil => simp
    | cons d more => simpa using hmore
  have hlast : (p.1.toList ++ (more ++ ['.'])).getLast? = some '.' := by
    rw [← List.append_assoc, List.getLast?_concat]
  have hsolid : Solid (p.1.toList ++ (more ++ ['.'])) := by
    rw [← List.append_assoc, ← htext]
    exact (solid_joinParts hps).append (.plain (by decide) (by decide))
  have hsplit : joinParts (p :: ps) ++ '.' :: back = p.1.toList ++ (more ++ ['.']) ++ back := by
    simp [htext]
  rw [hsplit] at htrim hread ⊢
  obtain ⟨hfirst, hhead, -⟩ := named_front hname hdot
  have hlead := leadingPath_append hsolid (by simpa using balanced_of_parse hread) hback
  rw [parseTrimmed_reads hsolid hfirst hhead hback htrim hread, Splits, hlead, hlast]
  refine ⟨?_, fun h => h.1 rfl⟩
  rintro (⟨segments, h⟩ | ⟨hbracket, -⟩)
  · obtain ⟨qs, hqs, hne, hnames, -⟩ := attributePath_joined hname hdot hsolid h
    exact joinParts_last hne hnames (hqs ▸ hlast)
  · cases hbracket

/-- Components have a dot behind their brackets, if anything. -/
theorem parseTrimmed_glued {name inner rest : List Char} {c : Char} {g : Filter}
    (hname : isAttributeName name = true) (hinner : Filter.parse (String.ofList inner) = .ok g)
    (hc : c ≠ '.') (hends : endsLead c = false)
    (htrim : Trimmed (name ++ '[' :: (inner ++ ']' :: c :: rest)))
    (hread : Filter.parse (String.ofList (name ++ '[' :: (inner ++ ']' :: c :: rest))) = .ok f) :
    (∃ segments, parseTrimmed r (name ++ '[' :: (inner ++ ']' :: c :: rest)) = .ok segments) ↔
      Splits (name ++ '[' :: (inner ++ ']' :: c :: rest)) := by
  have hbrackets : Solid (name ++ '[' :: (inner ++ [']'])) :=
    (Solid.ofQualified (Filter.isAttributeName_qualified hname)).append
      (.brackets (by simpa using balanced_of_parse hinner))
  have hbalanced : Balanced (name ++ '[' :: (inner ++ [']']) ++ c :: rest) := by
    simpa using balanced_of_parse hread
  obtain ⟨more, back, rfl, hsolid, hback⟩ := lead_brackets hbrackets hbalanced hends
  have hfront : name ++ '[' :: (inner ++ [']']) ++ c :: more =
      name ++ '[' :: (inner ++ ']' :: c :: more) := by simp
  have hsplit : name ++ '[' :: (inner ++ ']' :: c :: (more ++ back)) =
      name ++ '[' :: (inner ++ ']' :: c :: more) ++ back := by simp
  rw [hfront] at hsolid
  rw [hsplit] at htrim hread ⊢
  have hglued : IsGlued (name ++ '[' :: (inner ++ ']' :: c :: more)) :=
    ⟨name, inner, g, c, more, hname, hinner, rfl, hc⟩
  have hopens : ∀ d ∈ ('[' :: (inner ++ ']' :: c :: more)).head?, d = '[' ∨ d = '.' := by simp
  obtain ⟨hfirst, hhead, -⟩ := named_front hname hopens
  have hlead := leadingPath_append hsolid (by simpa using balanced_of_parse hread) hback
  have hnone : ¬∃ segments,
      attributePath r (name ++ '[' :: (inner ++ ']' :: c :: more)) = .ok segments := by
    rintro ⟨segments, h⟩
    obtain ⟨qs, hqs, -, hnames, hsegments⟩ := attributePath_joined hname hopens hsolid h
    exact joinParts_not_glued hnames hsegments (hqs ▸ hglued)
  rw [parseTrimmed_reads hsolid hfirst hhead hback htrim hread, Splits, hlead]
  constructor
  · rintro (h | ⟨hlast, hmore⟩)
    · exact absurd h hnone
    · exact ⟨by simp [hlast], fun _ => ⟨hlast, by simpa using hmore⟩⟩
  · rintro ⟨-, h⟩
    exact .inr ⟨(h hglued).1, by simpa using (h hglued).2⟩

end Reading

/-- A filter without URNs is accepted as an expression exactly when its leading path splits. -/
theorem parse_filter_iff {text : String} {f : Filter} (hread : Filter.parse text = .ok f)
    (hplain : ∀ a ∈ f.paths, a.schema = none) :
    (∃ e, parse r text = .ok e) ↔ Splits (trimBlanks text.toList) := by
  have hcore := Filter.parse_trimBlanks hread
  have htrim := trimmed_trimBlanks text.toList
  have hlen : utf8Length (trimBlanks text.toList) ≤ greatestLength := by
    simpa using (Filter.parse_eq_ok.mp hcore).1
  have hbegins := begins_of_parse htrim.first hcore hplain
  have hparse : (∃ e, parse r text = .ok e) ↔
      ∃ segments, parseTrimmed r (trimBlanks text.toList) = .ok segments := by
    have hne : trimBlanks text.toList ≠ [] := by
      intro hnil
      rw [hnil] at hcore
      obtain ⟨-, rest, hscan, -⟩ := Filter.parse_eq_ok.mp hcore
      cases hscan
    simp only [parse, List.isEmpty_eq_false_iff.mpr hne, Bool.false_eq_true, if_false,
      Nat.not_lt.mpr hlen]
    cases parseTrimmed r (trimBlanks text.toList) <;> simp [Except.map]
  rw [hparse]
  generalize trimBlanks text.toList = core at *
  cases hbegins with
  | group rest =>
    obtain ⟨hsome, hsplits⟩ := parseTrimmed_group (r := r) hcore
    exact iff_of_true hsome hsplits
  | path hne hps hqs hrest =>
    obtain ⟨hsome, hsplits⟩ := parseTrimmed_parts (r := r) hne hps hqs hrest htrim hcore
    exact iff_of_true hsome hsplits
  | dot hne hps hc =>
    obtain ⟨hnone, hsplits⟩ :=
      parseTrimmed_dot (r := r) hne hps (by simpa using endsLead_of_isBlank hc) htrim hcore
    exact iff_of_false hnone hsplits
  | glued hname hinner hc hlead => exact parseTrimmed_glued hname hinner hc hlead htrim hcore

/-- A keyword right behind brackets, in a leading path that is passed over. -/
theorem parse_filter_iff_chained : ∃ f e,
    Filter.parse "emails[type pr]and$ref[value pr] and active pr" = .ok f ∧
      (∀ a ∈ f.paths, a.schema = none) ∧
        parse .standard "emails[type pr]and$ref[value pr] and active pr" = .ok e ∧
          Splits (trimBlanks "emails[type pr]and$ref[value pr] and active pr".toList) := by
  let f : Filter := .and (.and (.select (.ofName "emails") (.present (.ofName "type")))
    (.select (.ofName "$ref") (.present (.ofName "value")))) (.present (.ofName "active"))
  have hread : Filter.parse "emails[type pr]and$ref[value pr] and active pr" = .ok f := by
    decide +kernel
  have hplain : ∀ a ∈ f.paths, a.schema = none := by decide
  have hparse : parse .standard "emails[type pr]and$ref[value pr] and active pr" =
      .ok ⟨[.test f.toText]⟩ := by decide +kernel
  exact ⟨f, _, hread, hplain, hparse, (parse_filter_iff hread hplain).mp ⟨_, hparse⟩⟩

/-- A blank behind a dot is read in a filter and refused in an expression. -/
theorem parse_spaced_refused : ∃ f error, Filter.parse "name. givenName eq \"x\"" = .ok f ∧
    (∀ a ∈ f.paths, a.schema = none) ∧
      parse .standard "name. givenName eq \"x\"" = .error error :=
  ⟨.compare ⟨none, "name", some "givenName"⟩ .eq (.text "x"), malformed .emptySegment 5,
    by decide +kernel, by decide, by decide +kernel⟩

end Expression

end Roster
