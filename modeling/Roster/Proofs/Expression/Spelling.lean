import Roster.Proofs.Expression.Comparison
import Roster.Proofs.Expression.Split
import Roster.Proofs.Filter.Enclosed

/-!
Paths as they are spelled at the front of a filter: what a filter reads behind them, and the
components and the schema that are read from the path by itself.
-/

namespace Roster

namespace Expression

open Filter (Fails Stops Closes closes_cons closes_blanks stops_cons scanOperand scanTest
  scanEnclosed scanWithin scanAttribute greatestDepth)

variable {r : Registry}

/-! ### Operands behind a path -/

section Operands

variable {nested : Filter.Scan Filter} {a : AttributePath} {f : Filter} {rest more : List Char}

/-- Behind a path without brackets stands its test. -/
theorem Spelled.operand_test (ha : Spelled a) (hnot : a.isNot = false) (hr : Stops rest)
    (hbracket : rest.head? ≠ some '[')
    (h : scanOperand nested (a.toText.toList ++ rest) = .ok (f, more)) :
    scanTest a rest = .ok (f, more) := by
  by_cases hwell : a.WellFormed
  case neg => exact absurd h (ha.operand_fails hwell nested rest _)
  case pos =>
    rw [Filter.scanOperand_path hwell hnot hr] at h
    have hself := Filter.scanPath_toText hwell hr
    cases Filter.scanAttribute_iff.mp h with
    | tested hpath _ htest =>
      cases hself.symm.trans hpath
      exact htest
    | selected hpath =>
      cases hself.symm.trans hpath
      exact absurd rfl hbracket

/-- Behind a path with brackets their filter is read, and what stands behind them. -/
theorem Spelled.operand_select (ha : Spelled a) {inner : List Char}
    (h : scanOperand nested (a.toText.toList ++ '[' :: inner) = .ok (f, more)) :
    a.sub = none ∧ ∃ g behind, scanEnclosed nested ']' .unclosedSelection inner = .ok (g, behind) ∧
      Filter.behindSelection a g behind = .ok (f, more) := by
  have hstop : Stops ('[' :: inner) := stops_cons rfl
  by_cases hwell : a.WellFormed
  case neg => exact absurd h (ha.operand_fails hwell nested _ _)
  case pos =>
    cases hnot : a.isNot with
    | true =>
      exact absurd h (Filter.scanOperand_keyword hwell hnot hstop (by rintro _ ⟨⟩) _)
    | false =>
      rw [Filter.scanOperand_path hwell hnot hstop] at h
      have hself := Filter.scanPath_toText hwell hstop
      cases Filter.scanAttribute_iff.mp h with
      | selected hpath hsub hinner hbehind =>
        cases hself.symm.trans hpath
        exact ⟨hsub, _, _, hinner, hbehind⟩
      | tested hpath hbracket =>
        cases hself.symm.trans hpath
        exact absurd rfl (hbracket inner)

/-- No path is made of two names and what stands behind another dot. -/
theorem scanQualified_dotted {urn name sub : List Char} (hq : urn.all Filter.isQualifiedChar = true)
    (hn : isAttributeName name = true) (hs : isAttributeName sub = true)
    (hcolon : ':' ∉ rest.takeWhile Filter.isQualifiedChar) :
    Fails (Filter.scanQualified (urn ++ ':' :: (name ++ '.' :: (sub ++ '.' :: rest)))) := by
  have htoken : (urn ++ ':' :: (name ++ '.' :: (sub ++ '.' :: rest))).takeWhile
      Filter.isQualifiedChar = urn ++ ':' :: (name ++ '.' :: (sub ++ '.' ::
        rest.takeWhile Filter.isQualifiedChar)) := by
    have hname := List.all_eq_true.mp (Filter.isAttributeName_qualified hn)
    have hsub := List.all_eq_true.mp (Filter.isAttributeName_qualified hs)
    have hmark : Filter.isQualifiedChar ':' = true ∧ Filter.isQualifiedChar '.' = true := by decide
    simp [List.takeWhile_append_of_pos (List.all_eq_true.mp hq), List.takeWhile_append_of_pos hname,
      List.takeWhile_append_of_pos hsub, hmark]
  have hlocal : ':' ∉ name ++ '.' :: (sub ++ '.' :: rest.takeWhile Filter.isQualifiedChar) := by
    have hname := Filter.not_mem_of_isAttributeName hn (c := ':') rfl
    have hsub := Filter.not_mem_of_isAttributeName hs (c := ':') rfl
    simp [hname, hsub, hcolon]
  have hdot {cs : List Char} (h : isAttributeName cs = true) : ∀ c ∈ cs, (c == '.') = false := by
    intro c hc
    rw [beq_eq_false_iff_ne]
    rintro rfl
    exact Filter.not_mem_of_isAttributeName h rfl hc
  have hsplit : (name ++ '.' :: (sub ++ '.' :: rest.takeWhile Filter.isQualifiedChar)).splitOnP
      (· == '.') = name :: sub :: (rest.takeWhile Filter.isQualifiedChar).splitOnP (· == '.') := by
    rw [List.splitOnP_append_cons_of_forall_mem (hdot hn) _ rfl,
      List.splitOnP_append_cons_of_forall_mem (hdot hs) _ rfl]
  obtain ⟨part, parts, hparts⟩ := List.exists_cons_of_ne_nil
    (List.splitOnP_ne_nil (· == '.') (rest.takeWhile Filter.isQualifiedChar))
  simp only [Filter.scanQualified, htoken, Filter.splitLastColon_append hlocal, hsplit, hparts]
  exact Filter.fails_error _

/-- Nothing is read where a dot follows a name and its sub-attribute. -/
theorem Spelled.operand_dotted (ha : Spelled a) {sub : String} (hsub : a.sub = some sub)
    (hcolon : ':' ∉ rest.takeWhile Filter.isQualifiedChar) :
    Fails (scanOperand nested (a.toText.toList ++ '.' :: rest)) := by
  by_cases hwell : a.WellFormed
  case neg => exact ha.operand_fails hwell nested _
  case pos =>
    have hs := ha.sub sub hsub
    cases hschema : a.schema with
    | some urn =>
      obtain ⟨hoperand, hpath⟩ :=
        Filter.scanOperand_urn nested (Filter.toText_begins hwell hschema ('.' :: rest))
      have hlocal : a.toText.toList ++ '.' :: rest =
          urn.toList ++ ':' :: (a.name.toList ++ '.' :: (sub.toList ++ '.' :: rest)) := by
        simp [Filter.toText_qualified hschema, Filter.localPart, hsub]
      rw [hoperand, scanAttribute, hpath, hlocal]
      exact (scanQualified_dotted (hwell.schema urn hschema).1 ha.name hs hcolon).bind _
    | none =>
      have hlocal : a.toText.toList ++ '.' :: rest =
          a.name.toList ++ '.' :: (sub.toList ++ '.' :: rest) := by
        simp [Filter.toText_localPart hschema, Filter.localPart, hsub]
      have hdot (cs : List Char) : ∀ c ∈ ('.' :: cs).head?, isNameChar c = false ∧ c ≠ ':' := by
        rintro c ⟨⟩
        decide
      have hnot : Filter.keyword? "not" (a.name.toList ++ '.' :: (sub.toList ++ '.' :: rest)) =
          none :=
        Filter.keyword?_name (by decide) ha.name (fun c hc => (hdot _ c hc).1) (.inr rfl)
      have hpath : Filter.scanPath (a.name.toList ++ '.' :: (sub.toList ++ '.' :: rest)) =
          .ok (⟨none, a.name, some sub⟩, '.' :: rest) := by
        simp only [Filter.scanPath, Filter.skipBlanks_name ha.name,
          Filter.beginsWith_urn_name ha.name (hdot _), Bool.false_eq_true, if_false,
          Filter.scanName_append ha.name fun c hc => (hdot _ c hc).1]
        simp [Filter.scanName_append hs fun c hc => (hdot _ c hc).1, bind, Except.bind]
      obtain ⟨c, cs, hname⟩ := List.exists_cons_of_ne_nil
        (Filter.ne_nil_of_isAttributeName ha.name)
      have hparen : c ≠ '(' := by
        rintro rfl
        exact Filter.not_mem_of_isAttributeName ha.name (c := '(') rfl (by simp [hname])
      have hoperand : scanOperand nested (a.name.toList ++ '.' :: (sub.toList ++ '.' :: rest)) =
          scanAttribute nested (a.name.toList ++ '.' :: (sub.toList ++ '.' :: rest)) := by
        simp only [scanOperand, hnot, Filter.skipBlanks_name ha.name]
        simp [hname, hparen]
      rw [hlocal, hoperand, scanAttribute, hpath]
      exact Filter.scanTest_fails (show isBlank '.' = false by decide)
        (show isLetter '.' = false by decide) ⟨none, a.name, some sub⟩ rest

end Operands

/-! ### Paths as they are spelled -/

/-- What stands in front of the names of a path. -/
def schemaText : Option String → List Char
  | none => []
  | some urn => urn.toList ++ [':']

/-- Every extension is registered under a URN of its own, not under that of a core schema. -/
def OwnUrns (r : Registry) : Prop :=
  ∀ e ∈ r.extensions, isUrn e.schema.id = true ∧ isCoreSchema e.schema.id = false

theorem isCoreSchema_sameName {a b : String} (h : sameName a b = true) :
    isCoreSchema a = isCoreSchema b := by
  have hsame (id : String) : sameName id a = sameName id b := by
    rw [Bool.eq_iff_iff, sameName_iff, sameName_iff, sameName_iff.mp h]
  simp only [isCoreSchema, hsame]

theorem OwnUrns.known (h : OwnUrns r) {urn : String} (hknown : r.isKnownExtension urn = true) :
    isUrn urn = true ∧ isCoreSchema urn = false := by
  obtain ⟨e, he, hname⟩ := List.any_eq_true.mp hknown
  rw [← isUrn_congr hname, ← isCoreSchema_sameName hname]
  exact h e he

theorem isUrn_core {urn : String} (h : isCoreSchema urn = true) : isUrn urn = true := by
  rcases Bool.or_eq_true_iff.mp h with hname | hname
  · rw [← isUrn_congr hname]
    decide
  · rw [← isUrn_congr hname]
    decide

/-- The URN that a path is spelled with, and the extension that it is read under. -/
inductive ReadUnder (r : Registry) : Option String → Option String → Prop where
  | plain : ReadUnder r none none
  | extension {urn : String} (h : r.isKnownExtension urn = true) : ReadUnder r (some urn) (some urn)
  | core {urn : String} (h : isCoreSchema urn = true) : ReadUnder r (some urn) none

theorem ReadUnder.isUrn {urn : String} {ext : Option String} (hr : OwnUrns r)
    (h : ReadUnder r (some urn) ext) : isUrn urn = true := by
  cases h with
  | extension hknown => exact (hr.known hknown).1
  | core hcore => exact isUrn_core hcore

/-- A path in front of which stands a URN or nothing, and its components as they are spelled. -/
structure Spelling (lead : List Char) (schema : Option String)
    (ps : List (String × Option String)) : Prop where
  text : lead = schemaText schema ++ joinParts ps
  names : ∀ p ∈ ps, isAttributeName p.1.toList = true
  schema : ∀ urn ∈ schema, urn.toList.all isLeadChar = true ∧
    beginsWith "urn:".toList (urn.toList ++ [':']) = true

theorem toText_spelled {schema : Option String} {name : String} {sub : Option String} :
    (AttributePath.mk schema name sub).toText.toList =
      schemaText schema ++ Filter.localPart ⟨schema, name, sub⟩ := by
  cases schema with
  | none => rw [Filter.toText_localPart rfl, schemaText, List.nil_append]
  | some urn => simp [Filter.toText_qualified, schemaText]

/-- What is read behind a path, by the components of the path: at most two names, of which the
first may have brackets. -/
inductive Walk (schema : Option String) (back : List Char) :
    List (String × Option String) → Filter → List Char → Prop where
  | name {name : String} {f : Filter} {more : List Char}
      (h : scanTest ⟨schema, name, none⟩ back = .ok (f, more)) :
    Walk schema back [(name, none)] f more
  | dotted {name sub : String} {f : Filter} {more : List Char}
      (h : scanTest ⟨schema, name, some sub⟩ back = .ok (f, more)) :
    Walk schema back [(name, none), (sub, none)] f more
  | selected {name text : String} {f : Filter} (hread : Filter.parse text = .ok f) :
    Walk schema back [(name, some text)] (.select ⟨schema, name, none⟩ f)
      ((Filter.keyword? "pr" back).getD back)
  | narrowed {name text sub : String} {f t : Filter} {more : List Char}
      (hread : Filter.parse text = .ok f) (h : scanTest (.ofName sub) back = .ok (t, more)) :
    Walk schema back [(name, some text), (sub, none)]
      (.select ⟨schema, name, none⟩ (.and f.groupedIfOr t)) more

section Walks

variable {lead back more : List Char} {schema : Option String} {f : Filter}
variable {ps : List (String × Option String)}

theorem Spelling.spelled (h : Spelling lead schema ps) {name : String} {sub : Option String}
    (hname : isAttributeName name.toList = true)
    (hsub : ∀ s ∈ sub, isAttributeName s.toList = true) :
    Spelled ⟨schema, name, sub⟩ :=
  ⟨hname, hsub, h.schema⟩

/-- No colon stands in the names in front of the first bracket. -/
theorem colon_not_mem_names (hps : ∀ p ∈ ps, isAttributeName p.1.toList = true)
    (hback : Stops back) : ':' ∉ (joinParts ps ++ back).takeWhile Filter.isQualifiedChar := by
  rw [Filter.takeWhile_behind hback]
  intro hcolon
  refine colon_not_mem_schemaPart hps ?_
  have hsplit : joinParts ps = (joinParts ps).takeWhile Filter.isQualifiedChar ++
      (joinParts ps).dropWhile Filter.isQualifiedChar := List.takeWhile_append_dropWhile.symm
  have hbracket : ∀ c ∈ (joinParts ps).takeWhile Filter.isQualifiedChar, (c != '[') = true := by
    intro c hc
    have hq := List.all_eq_true.mp (List.all_takeWhile (l := joinParts ps)) c hc
    rw [bne_iff_ne]
    rintro rfl
    exact absurd hq (by decide)
  rw [schemaPart, hsplit, List.takeWhile_append_of_pos hbracket]
  exact List.mem_append_left _ hcolon

theorem Spelling.walk_names {name : String} {q : String × Option String}
    (h : Spelling lead schema ((name, none) :: q :: ps)) (hback : Stops back)
    (hbracket : back.head? ≠ some '[')
    (hscan : scanOperand (scanWithin greatestDepth) (lead ++ back) = .ok (f, more)) :
    Walk schema back ((name, none) :: q :: ps) f more := by
  obtain ⟨sub, inner⟩ := q
  have hname := h.names (name, none) (by simp)
  have hsub := h.names (sub, inner) (by simp)
  have hspelled : Spelled ⟨schema, name, some sub⟩ := h.spelled hname (by simpa using hsub)
  have htext (tail : List Char) (htail : joinParts ((sub, inner) :: ps) = sub.toList ++ tail) :
      lead ++ back = (AttributePath.mk schema name (some sub)).toText.toList ++ (tail ++ back) := by
    simp [h.text, joinParts, partText, toText_spelled, Filter.localPart, htail]
  cases inner with
  | some text =>
    obtain ⟨tail, htail⟩ :
        ∃ tail, joinParts ((sub, some text) :: ps) = sub.toList ++ '[' :: tail := by
      cases ps with
      | nil => exact ⟨_, rfl⟩
      | cons p ps => exact ⟨_, by simp only [joinParts, partText, List.append_assoc]; rfl⟩
    rw [htext _ htail] at hscan
    exact absurd (hspelled.operand_select hscan).1 (by simp)
  | none =>
    cases ps with
    | nil =>
      rw [htext [] (by simp [joinParts, partText]), List.nil_append] at hscan
      exact .dotted (hspelled.operand_test (by simp [AttributePath.isNot]) hback hbracket hscan)
    | cons p ps =>
      have hnames : ∀ q ∈ p :: ps, isAttributeName q.1.toList = true :=
        fun q hq => h.names q (List.mem_cons_of_mem _ (List.mem_cons_of_mem _ hq))
      rw [htext _ rfl] at hscan
      exact absurd hscan (hspelled.operand_dotted rfl (colon_not_mem_names hnames hback) _)

/-- A name behind a dot with its test leaves no room for brackets or another dot: it is all that
stands there. -/
theorem dotted_test {p : String × Option String} {name : String} {left : List Char} {t : Filter}
    (hname : isAttributeName p.1.toList = true) (hback : Stops back)
    (hscan : Filter.scanName (joinParts (p :: ps) ++ back) = .ok (name, left))
    (ht : scanTest (.ofName name) left = .ok (t, more)) :
    p = (name, none) ∧ ps = [] ∧ left = back := by
  obtain ⟨sub, inner⟩ := p
  obtain ⟨rest, hjoin, hrest⟩ := joinParts_name (sub, inner) ps
  have hstop : ∀ c ∈ (rest ++ back).head?, isNameChar c = false := by
    intro c hc
    rw [List.head?_append] at hc
    rcases Option.or_eq_some_iff.mp hc with hc | ⟨-, hc⟩
    · rcases hrest c hc with rfl | rfl <;> rfl
    · exact hback.not_isNameChar c hc
  rw [hjoin, List.append_assoc, Filter.scanName_append hname hstop] at hscan
  cases hscan
  obtain rfl : rest = [] := by
    by_contra hne
    obtain ⟨c, rest, rfl⟩ := List.exists_cons_of_ne_nil hne
    have hmark : isBlank c = false ∧ isLetter c = false := by
      rcases hrest c rfl with rfl | rfl <;> decide
    exact Filter.scanTest_fails hmark.1 hmark.2 _ _ _ ht
  cases inner with
  | some text => cases ps <;> simp [joinParts, partText] at hjoin
  | none =>
    cases ps with
    | nil => exact ⟨by rw [String.ofList_toList], rfl, rfl⟩
    | cons p ps => simp [joinParts, partText] at hjoin

theorem Spelling.walk_brackets {name text : String}
    (h : Spelling lead schema ((name, some text) :: ps)) (hback : Stops back) {g : Filter}
    (hread : Filter.parse text = .ok g)
    (hscan : scanOperand (scanWithin greatestDepth) (lead ++ back) = .ok (f, more)) :
    Walk schema back ((name, some text) :: ps) f more := by
  have hname := h.names (name, some text) (by simp)
  have hspelled : Spelled ⟨schema, name, none⟩ := h.spelled hname (by simp)
  have hfilter : Filter.parse (String.ofList text.toList) = .ok g := by
    rwa [String.ofList_toList]
  have behind (tail : List Char) (htail : joinParts ((name, some text) :: ps) =
      name.toList ++ '[' :: (text.toList ++ ']' :: tail)) :
      Filter.behindSelection ⟨schema, name, none⟩ g (tail ++ back) = .ok (f, more) := by
    have hlead : lead ++ back = (AttributePath.mk schema name none).toText.toList ++
        '[' :: (text.toList ++ ']' :: (tail ++ back)) := by
      simp [h.text, htail, toText_spelled, Filter.localPart]
    rw [hlead] at hscan
    obtain ⟨-, g', left, henclosed, hbehind⟩ := hspelled.operand_select hscan
    obtain ⟨rfl, rfl⟩ :=
      Filter.scanEnclosed_parse (.inr rfl) (Nat.le_succ greatestDepth) hfilter henclosed
    exact hbehind
  cases ps with
  | nil =>
    have hbehind := behind [] (by simp [joinParts, partText])
    rw [List.nil_append] at hbehind
    cases Filter.behindSelection_iff.mp hbehind with
    | plain => exact .selected hread
    | dotted => exact absurd (hback '.' rfl) (by decide)
  | cons p ps =>
    have hbehind := behind ('.' :: joinParts (p :: ps)) (by simp [joinParts, partText])
    rw [List.cons_append] at hbehind
    cases Filter.behindSelection_iff.mp hbehind with
    | plain hdot => exact absurd rfl (hdot _)
    | dotted hsub ht =>
      obtain ⟨rfl, rfl, rfl⟩ := dotted_test (h.names p (by simp)) hback hsub ht
      exact .narrowed hread ht

theorem Spelling.walk (h : Spelling lead schema ps) (hne : ps ≠ []) (hback : Stops back)
    (hbracket : back.head? ≠ some '[')
    (hnot : ∀ name, ps = [(name, none)] → sameName name "not" = false)
    (hfilters : ∀ p ∈ ps, ∀ text ∈ p.2, ∃ g, Filter.parse text = .ok g)
    (hscan : scanOperand (scanWithin greatestDepth) (lead ++ back) = .ok (f, more)) :
    Walk schema back ps f more := by
  obtain ⟨⟨name, filter⟩, ps, rfl⟩ := List.exists_cons_of_ne_nil hne
  cases filter with
  | some text =>
    obtain ⟨g, hg⟩ := hfilters (name, some text) List.mem_cons_self text rfl
    exact h.walk_brackets hback hg hscan
  | none =>
    cases ps with
    | cons q ps => exact h.walk_names hback hbracket hscan
    | nil =>
      have hspelled : Spelled ⟨schema, name, none⟩ :=
        h.spelled (h.names (name, none) (by simp)) (by simp)
      have hlead : lead = (AttributePath.mk schema name none).toText.toList := by
        simp [h.text, toText_spelled, Filter.localPart, joinParts, partText]
      rw [hlead] at hscan
      refine .name (hspelled.operand_test ?_ hback hbracket hscan)
      simp [AttributePath.isNot, hnot name rfl]

end Walks

/-! ### Components as they are spelled -/

theorem joinParts_head {ps : List (String × Option String)} (hne : ps ≠ [])
    (hps : ∀ p ∈ ps, isAttributeName p.1.toList = true) : (joinParts ps).head? ≠ some '[' := by
  obtain ⟨p, ps, rfl⟩ := List.exists_cons_of_ne_nil hne
  obtain ⟨rest, hjoin, -⟩ := joinParts_name p ps
  have hname := hps p List.mem_cons_self
  obtain ⟨c, cs, hcs⟩ := List.exists_cons_of_ne_nil (Filter.ne_nil_of_isAttributeName hname)
  rw [hjoin, hcs]
  rintro ⟨⟩
  exact Filter.not_mem_of_isAttributeName hname (c := '[') rfl (by simp [hcs])

/-- A leading path that was read is the URN of an extension, or has components behind what is in
front of them. -/
theorem attributePath_spelled {lead : List Char} {b : Boundary} {segments : List Segment}
    (hr : OwnUrns r) (hlead : (schemaPart lead).all isLeadChar = true)
    (hscan : lead.foldlM Boundary.step ⟨0, none, false, [], none⟩ = .ok b) (hb : b.opened = [])
    (hwrap : unwrapped? lead = none) (h : attributePath r lead = .ok segments) :
    (∃ urn, r.isKnownExtension urn = true ∧ segments = [.name urn]) ∨
      ∃ schema ext ps qs, ReadUnder r schema ext ∧ Spelling lead schema ps ∧ ps ≠ [] ∧
        segmentsOf ps = .ok qs ∧ segments = (ext.map Segment.name).toList ++ qs := by
  cases attributePath_read h with
  | bracketed hwrap' => cases hwrap.symm.trans hwrap'
  | @plain ps _ _ _ hps hqs =>
    obtain ⟨hne, hnames⟩ := components_names hps
    have htext := components_eq_ok hps rfl hscan hb
    exact .inr ⟨none, none, ps, segments, .plain, ⟨htext, hnames, by simp⟩, hne, hqs, rfl⟩
  | extension _ _ hschema =>
    obtain ⟨_, _, -, -, -, ⟨hknown, hext⟩ | ⟨-, hext⟩⟩ := schemaOf_eq_ok hschema
    · cases hext
      exact .inl ⟨_, hknown, rfl⟩
    · cases hext
  | @behind ext _ ps qs _ _ hschema hrest hps hqs =>
    obtain ⟨front, back, hcandidate, htext, rfl, hfound⟩ := schemaOf_eq_ok hschema
    obtain ⟨hne, hnames⟩ := components_names hps
    have hfront : front.all isLeadChar = true :=
      List.all_eq_true.mpr fun c hc => List.all_eq_true.mp hlead c (hcandidate.subset hc)
    -- nothing opens in front of the components
    have hjoin {before : List Char} (hbefore : before.all isLeadChar = true)
        (hsplit : lead = before ++ dropColon back) : dropColon back = joinParts ps := by
      rw [hsplit, scan_append ((Solid.ofLead hbefore).scan_boundary rfl rfl)] at hscan
      exact components_eq_ok hps rfl hscan hb
    rcases hcandidate with ⟨-, hbracket⟩ | ⟨more, hpart, behind, rfl⟩
    · cases back with
      | nil => exact absurd rfl hrest
      | cons c back =>
        cases hbracket c rfl
        have hnone := hjoin hfront htext
        exact absurd (congrArg List.head? hnone).symm (joinParts_head hne hnames)
    · have hcolon : (front ++ [':']).all isLeadChar = true := by
        rw [List.all_append, hfront]
        decide
      have hbehind : behind = joinParts ps := hjoin hcolon (by simp [htext, dropColon])
      have hext : ReadUnder r (some (String.ofList front)) ext := by
        rcases hfound with ⟨hknown, rfl⟩ | ⟨hcore, rfl⟩
        · exact .extension hknown
        · exact .core hcore
      refine .inr ⟨some (String.ofList front), ext, ps, qs, hext, ⟨?_, hnames, ?_⟩, hne, hqs, rfl⟩
      · simp [htext, schemaText, hbehind]
      · rintro urn ⟨⟩
        have hscheme := beginsWith_append (hext.isUrn hr) [':']
        rw [String.toList_ofList (l := front)] at hscheme ⊢
        exact ⟨hfront, hscheme⟩

end Expression

end Roster
