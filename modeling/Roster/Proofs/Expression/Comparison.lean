import Roster.Proofs.Expression.Reading
import Roster.Proofs.Filter.Comparison

/-!
A path with a comparison behind it, read as an expression. What is read does not depend on the
operator: either the comparison of the last name goes to the segments in front of it, or the whole
text is one filter.
-/

namespace Roster

open Filter (comparisonText comparisonText_toList scanLiteral Fails)

namespace Expression

/-! ### Paths in front of a comparison -/

/-- Names that are attribute names, behind a URN without blanks, quotes, brackets and
parentheses. -/
structure Spelled (a : AttributePath) : Prop where
  name : isAttributeName a.name.toList = true
  sub : ∀ s ∈ a.sub, isAttributeName s.toList = true
  schema : ∀ urn ∈ a.schema, urn.toList.all isLeadChar = true ∧
    beginsWith "urn:".toList (urn.toList ++ [':']) = true

theorem lead_of_qualified {cs : List Char} (h : cs.all Filter.isQualifiedChar = true) :
    cs.all isLeadChar = true := by
  rw [List.all_eq_true] at *
  intro c hc
  simp [isLeadChar, isMark_of_isQualifiedChar (h c hc), not_isBlank_of_isQualifiedChar (h c hc)]

theorem Spelled.localPart {a : AttributePath} (h : Spelled a) :
    (Filter.localPart a).all Filter.isQualifiedChar = true := by
  have hplain : ({ a with schema := none } : AttributePath).WellFormed :=
    ⟨h.name, h.sub, by simp⟩
  have hqualified := Filter.localPart_qualified hplain
  exact hqualified

theorem Spelled.lead {a : AttributePath} (h : Spelled a) :
    a.toText.toList.all isLeadChar = true := by
  have hlocal := lead_of_qualified h.localPart
  cases hurn : a.schema with
  | none => rwa [Filter.toText_localPart hurn]
  | some urn =>
    rw [Filter.toText_qualified hurn, List.all_append, List.all_cons, (h.schema urn hurn).1, hlocal]
    rfl

theorem Spelled.nonempty {a : AttributePath} (h : Spelled a) : a.toText.toList ≠ [] := by
  intro hnil
  cases hurn : a.schema with
  | none =>
    rw [Filter.toText_localPart hurn, Filter.localPart, List.append_eq_nil_iff] at hnil
    exact Filter.ne_nil_of_isAttributeName h.name hnil.1
  | some urn => simp [Filter.toText_qualified hurn] at hnil

/-- Text of the leading path alone is one that a test can stand behind. -/
theorem Leads.ofLead {front : List Char} (hne : front ≠ []) (h : front.all isLeadChar = true) :
    Leads front := by
  have hmark {c : Char} (hc : c ∈ front) : c ≠ '[' ∧ c ≠ ']' := by
    have hlead := List.all_eq_true.mp h c hc
    constructor
    · rintro rfl
      exact absurd hlead (by decide)
    · rintro rfl
      exact absurd hlead (by decide)
  refine ⟨.ofLead h, hne, fun hfirst => ?_, fun hlast => ?_⟩
  · exact (hmark (List.mem_of_head? hfirst)).1 rfl
  · exact (hmark (List.mem_of_getLast? hlast)).2 rfl

/-- No operand begins with a URN of other characters than those of a path. -/
theorem scanOperand_foreign {urn : List Char} (nested : Filter.Scan Filter)
    (hlead : urn.all isLeadChar = true)
    (hscheme : beginsWith "urn:".toList (urn ++ [':']) = true)
    (hforeign : ¬urn.all Filter.isQualifiedChar = true) (more : List Char) :
    Fails (Filter.scanOperand nested (urn ++ ':' :: more)) := by
  -- the first such character ends the token that the path is read from
  have hsplit : urn = urn.takeWhile Filter.isQualifiedChar ++
      urn.dropWhile Filter.isQualifiedChar := List.takeWhile_append_dropWhile.symm
  obtain ⟨c, back, hback⟩ : ∃ c back, urn.dropWhile Filter.isQualifiedChar = c :: back := by
    refine List.exists_cons_of_ne_nil fun hnil => hforeign ?_
    rw [hnil, List.append_nil] at hsplit
    rw [hsplit]
    exact List.all_takeWhile
  have hstop : Filter.isQualifiedChar c = false := by
    have hfirst := List.head?_dropWhile_not Filter.isQualifiedChar urn
    simpa [hback] using hfirst
  have hmark : isLeadChar c = true := by
    refine List.all_eq_true.mp hlead c ?_
    rw [hsplit, hback]
    simp
  have hblank : isBlank c = false := by
    simp only [isLeadChar, Bool.and_eq_true, Bool.not_eq_true'] at hmark
    exact hmark.2
  have hletter : isLetter c = false := by
    rw [Bool.eq_false_iff]
    intro hl
    have hq := isQualifiedChar_of_isNameChar (isNameChar_of_isLetter hl)
    rw [hstop] at hq
    cases hq
  have hbegins : beginsWith "urn:".toList (urn ++ ':' :: more) = true := by
    simpa using beginsWith_append hscheme more
  obtain ⟨hoperand, hpath⟩ := Filter.scanOperand_urn nested hbegins
  have hrest : (urn ++ ':' :: more).dropWhile Filter.isQualifiedChar =
      c :: (back ++ ':' :: more) := by
    have hall : (urn.takeWhile Filter.isQualifiedChar).all Filter.isQualifiedChar = true :=
      List.all_takeWhile
    conv_lhs => rw [hsplit, hback, List.append_assoc]
    exact dropWhile_append_stop hall (by simpa using hstop)
  have hbracket : c ≠ '[' := by
    rintro rfl
    exact absurd hmark (by decide)
  rw [hoperand]
  intro result hscan
  obtain ⟨⟨b, left⟩, hb, hscan⟩ := bind_eq_ok.mp hscan
  rw [hpath] at hb
  have hleft := (Filter.scanQualified_iff.mp hb).2
  rw [hrest] at hleft
  subst hleft
  dsimp only at hscan
  split at hscan
  case h_1 heq => exact hbracket (List.cons.inj heq).1
  case h_2 => exact Filter.scanTest_fails hblank hletter b _ _ hscan

theorem Spelled.foreign {a : AttributePath} (h : Spelled a) (hwell : ¬a.WellFormed) :
    ∃ urn, a.schema = some urn ∧ ¬urn.toList.all Filter.isQualifiedChar = true := by
  by_contra hnone
  push Not at hnone
  exact hwell ⟨h.name, h.sub, fun urn hurn => ⟨hnone urn hurn, (h.schema urn hurn).2⟩⟩

/-- No operand begins with a path under such a URN. -/
theorem Spelled.operand_fails {a : AttributePath} (h : Spelled a) (hwell : ¬a.WellFormed)
    (nested : Filter.Scan Filter) (more : List Char) :
    Fails (Filter.scanOperand nested (a.toText.toList ++ more)) := by
  obtain ⟨urn, hurn, hforeign⟩ := h.foreign hwell
  obtain ⟨hlead, hscheme⟩ := h.schema urn hurn
  rw [Filter.toText_qualified hurn, List.append_assoc, List.cons_append]
  exact scanOperand_foreign nested hlead hscheme hforeign _

/-- A filter that begins with a URN of other characters than those of a path is not read. -/
theorem parse_foreign {a : AttributePath} (h : Spelled a) (hwell : ¬a.WellFormed)
    (more : List Char) (f : Filter) :
    Filter.parse (String.ofList (a.toText.toList ++ ' ' :: more)) ≠ .ok f := by
  intro hread
  obtain ⟨-, left, hscan, -⟩ := Filter.parse_eq_ok.mp hread
  rw [String.toList_ofList] at hscan
  have hfails := h.operand_fails hwell (Filter.scanWithin Filter.greatestDepth) (' ' :: more)
  exact (hfails.bind _).bind _ _ hscan

/-! ### The end of the leading path -/

theorem leadEnd_words {front word word' : List Char} (more : List Char) (hf : Solid front)
    (hw : word.all (!isMark ·) = true) (hw' : word'.all (!isMark ·) = true)
    (hlength : utf8Length word = utf8Length word') :
    leadEnd (front ++ ' ' :: (word ++ more)) = leadEnd (front ++ ' ' :: (word' ++ more)) := by
  have hfront := hf.scan_boundary (b := ⟨0, none, false, [], none⟩) rfl rfl
  have scanned {word : List Char} (hw : word.all (!isMark ·) = true) :
      (front ++ ' ' :: (word ++ more)).foldlM Boundary.step ⟨0, none, false, [], none⟩ =
        more.foldlM Boundary.step ⟨utf8Length front + 1 + utf8Length word, none, false, [],
          some (utf8Length front)⟩ := by
    have hspace : (Boundary.shifted ⟨0, none, false, [], none⟩ front).step ' ' =
        .ok ⟨utf8Length front + 1, none, false, [], some (utf8Length front)⟩ := by
      have hsize : ' '.utf8Size = 1 := rfl
      simp [Boundary.step, Boundary.plain, Boundary.shifted, hsize, bind, Except.bind,
        show isBlank ' ' = true by decide]
    have hpast : Boundary.Past ⟨utf8Length front + 1, none, false, [], some (utf8Length front)⟩ :=
      ⟨rfl, rfl, rfl⟩
    rw [scan_append hfront, scan_cons hspace,
      scan_append ((Balanced.ofPlain hw).scan_boundary hpast)]
    rfl
  rw [leadEnd, leadEnd, scanned hw, scanned hw', hlength]

/-! ### Reading -/

theorem parse_visible {r : Registry} {text : String} {e : Expression} (ht : Trimmed text.toList)
    (hne : text.toList ≠ []) : parse r text = .ok e ↔
      utf8Length text.toList ≤ Filter.greatestLength ∧
        parseTrimmed r text.toList = .ok e.segments := by
  by_cases hlen : utf8Length text.toList ≤ Filter.greatestLength
  · rw [parse_trimmed ht hne hlen]
    simp [hlen]
  · have hempty : text.toList.isEmpty = false := List.isEmpty_eq_false_iff.mpr hne
    simp [parse, ht.trimBlanks, hempty, hlen, Nat.lt_of_not_le hlen]

theorem word_length (op : CompareOp) : utf8Length op.word.toList = 2 := by
  cases op <;> decide

theorem word_plain (op : CompareOp) : op.word.toList.all (!isMark ·) = true := by
  cases op <;> decide

theorem comparisonText_length (path : String) (op op' : CompareOp) (value : String) :
    utf8Length (comparisonText path op value).toList =
      utf8Length (comparisonText path op' value).toList := by
  simp [comparisonText_toList, word_length]

variable {r : Registry} {a : AttributePath} {value : String} {v : Literal}

/-- Reading a comparison comes down to attaching it to the path in front, or to reading it as one
filter. -/
theorem parse_attachOr (ha : Spelled a) (hv : scanLiteral value.toList = .ok (v, []))
    (op : CompareOp) (e : Expression) : parse r (comparisonText a.toText op value) = .ok e ↔
      utf8Length (comparisonText a.toText op value).toList ≤ Filter.greatestLength ∧
        (∃ stop, leadEnd (comparisonText a.toText op value).toList = .ok stop) ∧
          attachOr r (comparisonText a.toText op value).toList a.toText.toList
            (op.word.toList ++ ' ' :: value.toList) = .ok e.segments := by
  have hleads : Leads a.toText.toList := .ofLead ha.nonempty ha.lead
  have hvisible : EndsVisible (comparisonText a.toText op value).toList := by
    have hlast : EndsVisible value.toList := Filter.scanLiteral_visible hv
    rw [comparisonText, String.toList_append]
    exact hlast.append _
  obtain ⟨c, word, hword, hc⟩ : ∃ c word, op.word.toList = c :: word ∧ isBlank c = false := by
    cases op <;> exact ⟨_, _, rfl, by decide⟩
  have htext : (comparisonText a.toText op value).toList =
      a.toText.toList ++ ' ' :: c :: (word ++ ' ' :: value.toList) := by
    rw [comparisonText_toList, hword, List.cons_append]
  have htrimmed : Trimmed (comparisonText a.toText op value).toList := by
    refine hvisible.trimmed fun d hd => ?_
    rw [htext, List.head?_append_of_ne_nil _ ha.nonempty] at hd
    exact hleads.solid.trimmed.first d hd
  have hne : (comparisonText a.toText op value).toList ≠ [] := by simp [htext]
  rw [parse_visible htrimmed hne, hword, List.cons_append]
  refine and_congr_right fun _ => ?_
  rw [htext] at hvisible ⊢
  constructor
  · intro h
    obtain ⟨stop, hstop, -⟩ := bind_eq_ok.mp h
    have hend := leadEnd_ends hleads.solid (by decide) (by decide) hstop
    rw [hend] at hstop
    exact ⟨⟨_, hstop⟩, (parseTrimmed_ends hleads hstop hvisible hc).symm.trans h⟩
  · rintro ⟨⟨stop, hstop⟩, h⟩
    have hend := leadEnd_ends hleads.solid (by decide) (by decide) hstop
    rw [hend] at hstop
    exact (parseTrimmed_ends hleads hstop hvisible hc).trans h

/-- Whether a comparison is attached to a path does not depend on its operator. -/
theorem attach?_comparison {front : List Segment} (hv : scanLiteral value.toList = .ok (v, []))
    (ha : Spelled a) (hfront : attributePath r a.toText.toList = .ok front) :
    (∀ op : CompareOp, attach? front (op.word.toList ++ ' ' :: value.toList) = none) ∨
      ∃ before last, isAttributeName last.toList = true ∧ ∀ op : CompareOp,
        attach? front (op.word.toList ++ ' ' :: value.toList) =
          some (attached before (Filter.compare (.ofName last) op v).toText) := by
  have hleads : Leads a.toText.toList := .ofLead ha.nonempty ha.lead
  obtain ⟨ext, ps, hpath, rfl⟩ := attributePath_eq_ok (solid_schemaPart hleads.solid)
    (unwrapped?_eq_none hleads.first) hfront
  rcases List.eq_nil_or_concat ps with rfl | ⟨before, ⟨last, filter⟩, rfl⟩
  · -- the path is an extension as a whole
    obtain ⟨urn, rfl⟩ := Option.ne_none_iff_exists'.mp (hpath.nonempty rfl)
    have hurn := (hpath.extension urn rfl).scheme
    exact .inl fun op => by simp [attach?, pathSegments, hurn]
  rw [List.concat_eq_append] at hpath ⊢
  rw [pathSegments_snoc]
  cases filter with
  | some text => exact .inl fun op => by simp [attach?, segment]
  | none =>
    have hname : isAttributeName last.toList = true :=
      (hpath.components (last, none) (by simp)).name
    have hwell : (AttributePath.ofName last).WellFormed := .ofName hname
    have hread := Filter.parse_comparison hwell hv
    rw [toText_ofName] at hread
    have hwords (op : CompareOp) :
        last ++ " " ++ String.ofList (op.word.toList ++ ' ' :: value.toList) =
          comparisonText last op value := by
      simp [← String.toList_inj, comparisonText_toList]
    by_cases hok : utf8Length (comparisonText last .eq value).toList ≤ Filter.greatestLength ∧
        (AttributePath.ofName last).isNot = false
    · refine .inr ⟨pathSegments ext before, last, hname, fun op => ?_⟩
      have hlen := comparisonText_length last op .eq value
      have hparse := (hread op (.compare (.ofName last) op v)).mpr ⟨hlen ▸ hok.1, hok.2, rfl⟩
      rw [← hwords] at hparse
      exact attach?_read _ (isUrn_name hname) hparse
    · refine .inl fun op => ?_
      rw [Option.eq_none_iff_forall_ne_some]
      intro result hattach
      obtain ⟨front, name, f, b, hsegments, -, hparse, -⟩ := attach?_eq_some hattach
      obtain ⟨-, hlast⟩ := List.append_inj' hsegments rfl
      cases hlast
      rw [hwords] at hparse
      obtain ⟨hlen, hnot, -⟩ := (hread op f).mp hparse
      exact hok ⟨comparisonText_length last op .eq value ▸ hlen, hnot⟩

/-- The comparison of a name is one test, whether it is attached or read whole. -/
theorem parse_plain {name : String} {op : CompareOp} {e : Expression}
    (hname : isAttributeName name.toList = true) (hv : scanLiteral value.toList = .ok (v, []))
    (h : parse r (comparisonText name op value) = .ok e) :
    e = ⟨[.test (Filter.compare (.ofName name) op v).toText]⟩ := by
  have hwell : (AttributePath.ofName name).WellFormed := .ofName hname
  have hspelled : Spelled (.ofName name) := ⟨hname, by simp [AttributePath.ofName],
    by simp [AttributePath.ofName]⟩
  have hcomponent : ∀ p ∈ [(name, (none : Option String))], IsComponent p := by
    simpa using ⟨hname, by simp⟩
  have hsegments : attributePath r name.toList = .ok [.name name] :=
    attributePath_unqualified [(name, none)] (by simp) (fun p hp => (hcomponent p hp).isPart)
      (by simp)
  have hwords : name ++ " " ++ String.ofList (op.word.toList ++ ' ' :: value.toList) =
      comparisonText name op value := by
    simp [← String.toList_inj, comparisonText_toList]
  have hread := parse_attachOr (r := r) hspelled hv op e
  rw [toText_ofName] at hread
  obtain ⟨-, -, h⟩ := hread.mp h
  -- both ways read the same text
  rw [attachOr, hsegments] at h
  cases hparse : Filter.parse (comparisonText name op value) with
  | error fault =>
    have hnone : attach? [.name name] (op.word.toList ++ ' ' :: value.toList) = none := by
      rw [Option.eq_none_iff_forall_ne_some]
      intro result hattach
      obtain ⟨front, last, f, b, hsegments, -, hread, -⟩ := attach?_eq_some hattach
      have hends : [] ++ [Segment.name name] = front ++ [.name last] := hsegments
      obtain ⟨-, hlast⟩ := List.append_inj' hends rfl
      cases hlast
      rw [hwords, hparse] at hread
      cases hread
    simp [hnone, generalFilter, normalizeFilter, hparse, bind, Except.bind, Except.map] at h
  | ok f =>
    have hcompare := Filter.parse_comparison hwell hv op f
    rw [toText_ofName] at hcompare
    obtain ⟨-, -, rfl⟩ := hcompare.mp hparse
    have hattach := attach?_read [] (isUrn_name hname) (hwords ▸ hparse)
    rw [List.nil_append] at hattach
    simp only [bind, Except.bind, hattach, Filter.testPath?, Option.map_some,
      Except.ok.injEq] at h
    obtain ⟨segments⟩ := e
    exact congrArg Expression.mk h.symm

/-- A comparison with any operator in one place: by itself, or as the filter of a selection. -/
inductive Compares (v : Literal) : (CompareOp → Filter) → Prop where
  | compare {a : AttributePath} (h : a.WellFormed) : Compares v fun op => .compare a op v
  | select {a b : AttributePath} (ha : a.WellFormed) (hsub : a.sub = none) (hb : b.WellFormed) :
    Compares v fun op => .select a (.compare b op v)

theorem Compares.wellFormed {f : CompareOp → Filter} (h : Compares v f) (hv : v.WellFormed)
    (op : CompareOp) : (f op).WellFormed := by
  cases h with
  | compare h => exact ⟨h, hv⟩
  | select ha hsub hb => exact ⟨ha, hsub, hb, hv⟩

theorem compares_bracketed {a : AttributePath} (h : a.WellFormed) :
    Compares v fun op => (Filter.compare a op v).bracketed := by
  cases hsub : a.sub with
  | none => simpa only [Filter.bracketed, hsub] using Compares.compare h
  | some sub =>
    simpa only [Filter.bracketed, hsub] using
      Compares.select h.withoutSub rfl (.ofName (h.sub sub hsub))

/-- The last segment of an expression, as a function of the text of its filter. -/
inductive Ending : (String → Segment) → Prop where
  | test : Ending .test
  | selection {owner : String} : Ending (.selection owner)

theorem attached_ending (front : List Segment) : ∃ before ending, Ending ending ∧
    ∀ text, attached front text = before ++ [ending text] := by
  have hself (hnone : ∀ text, attached front text = front ++ [.test text]) :
      ∃ before ending, Ending ending ∧ ∀ text, attached front text = before ++ [ending text] :=
    ⟨front, .test, .test, hnone⟩
  cases hreverse : front.reverse with
  | nil => exact hself fun text => by simp only [attached, hreverse]
  | cons s rest =>
    cases s with
    | selection name filter => exact hself fun text => by simp only [attached, hreverse]
    | test filter => exact hself fun text => by simp only [attached, hreverse]
    | name owner =>
      cases hurn : isUrn owner with
      | true => exact hself fun text => by simp only [attached, hreverse, hurn, if_true]
      | false =>
        refine ⟨rest.reverse, .selection owner, .selection, fun text => ?_⟩
        simp [attached, hreverse, hurn]

/-- Where the leading path of a comparison ends does not depend on the operator. -/
theorem leadEnd_operator {path : String} {stop : Nat} {op : CompareOp} (hpath : Solid path.toList)
    (h : leadEnd (comparisonText path op value).toList = .ok stop) (op' : CompareOp) :
    leadEnd (comparisonText path op' value).toList = .ok stop := by
  have hwords := leadEnd_words (' ' :: value.toList) hpath (word_plain op')
    (word_plain op) ((word_length op').trans (word_length op).symm)
  rw [comparisonText_toList] at h ⊢
  exact hwords.trans h

/-- A comparison as one filter. -/
theorem generalFilter_comparison (ha : Spelled a) (hv : scanLiteral value.toList = .ok (v, []))
    {op : CompareOp} {segments : List Segment} :
    generalFilter (comparisonText a.toText op value).toList = .ok segments ↔
      a.WellFormed ∧
        utf8Length (comparisonText a.toText op value).toList ≤ Filter.greatestLength ∧
          a.isNot = false ∧ segments = [.test (Filter.compare a op v).bracketed.toText] := by
  have hgeneral : generalFilter (comparisonText a.toText op value).toList = .ok segments ↔
      ∃ f, Filter.parse (comparisonText a.toText op value) = .ok f ∧
        segments = [.test f.bracketed.toText] := by
    simp only [generalFilter, normalizeFilter, String.ofList_toList, map_eq_ok]
    cases Filter.parse (comparisonText a.toText op value) <;> simp [eq_comm]
  rw [hgeneral]
  constructor
  · rintro ⟨f, hread, rfl⟩
    have hwell : a.WellFormed := by
      by_contra hforeign
      rw [← String.ofList_toList (s := comparisonText a.toText op value),
        comparisonText_toList] at hread
      exact parse_foreign ha hforeign _ f hread
    obtain ⟨hlen, hnot, rfl⟩ := (Filter.parse_comparison hwell hv op f).mp hread
    exact ⟨hwell, hlen, hnot, rfl⟩
  · rintro ⟨hwell, hlen, hnot, rfl⟩
    exact ⟨_, (Filter.parse_comparison hwell hv op _).mpr ⟨hlen, hnot, rfl⟩, rfl⟩

/-- A comparison that is read is read with every operator in its place. -/
theorem parse_operators (ha : Spelled a) (hv : scanLiteral value.toList = .ok (v, []))
    {op : CompareOp} {e : Expression} (h : parse r (comparisonText a.toText op value) = .ok e) :
    ∃ before ending f, Ending ending ∧ Compares v f ∧
      e.segments = before ++ [ending (f op).toText] ∧ ∀ op' : CompareOp,
        parse r (comparisonText a.toText op' value) = .ok ⟨before ++ [ending (f op').toText]⟩ := by
  obtain ⟨hlen, ⟨stop, hstop⟩, hattach⟩ := (parse_attachOr ha hv op e).mp h
  have hleads : Leads a.toText.toList := .ofLead ha.nonempty ha.lead
  have hstop' := leadEnd_operator hleads.solid hstop
  have hlen' (op' : CompareOp) :
      utf8Length (comparisonText a.toText op' value).toList ≤ Filter.greatestLength :=
    comparisonText_length a.toText op op' value ▸ hlen
  obtain ⟨front, hfront, hattach⟩ := bind_eq_ok.mp hattach
  rcases attach?_comparison hv ha hfront with hnone | ⟨owners, last, hname, hsome⟩
  · -- the whole text is one filter
    rw [hnone op] at hattach
    obtain ⟨hwell, -, hnot, hsegments⟩ := (generalFilter_comparison ha hv).mp hattach
    refine ⟨[], .test, fun op' => (Filter.compare a op' v).bracketed, .test,
      compares_bracketed hwell, hsegments, fun op' => ?_⟩
    rw [parse_attachOr ha hv]
    refine ⟨hlen' op', ⟨stop, hstop' op'⟩, ?_⟩
    rw [attachOr, hfront]
    simp only [bind, Except.bind, hnone op']
    exact (generalFilter_comparison ha hv).mpr ⟨hwell, hlen' op', hnot, rfl⟩
  · rw [hsome op] at hattach
    obtain ⟨before, ending, hending, hattached⟩ := attached_ending owners
    refine ⟨before, ending, fun op' => .compare (.ofName last) op' v, hending,
      .compare (.ofName hname), ?_, fun op' => ?_⟩
    · rw [← hattached]
      exact (Except.ok.inj hattach).symm
    · rw [parse_attachOr ha hv]
      refine ⟨hlen' op', ⟨stop, hstop' op'⟩, ?_⟩
      rw [attachOr, hfront]
      simp only [bind, Except.bind, hsome op', hattached]

end Expression

end Roster
