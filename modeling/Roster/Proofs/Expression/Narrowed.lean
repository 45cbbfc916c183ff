import Roster.Proofs.Expression.Accepted
import Roster.Proofs.Expression.Brackets
import Roster.Proofs.Filter.Narrowed

/-!
Paths with a selection in them. A selection is read as one segment, a test behind it as another one,
and the test inside its brackets as a part of its filter, each behind the URN of an extension or
none, and as long as no schema reaches up to the brackets.
-/

namespace Roster

namespace Expression

open Filter (IsTest greatestLength)

variable {r : Registry} {urn : Option String} {name filter : String}

/-! ### Behind a schema -/

/-- No schema is named by the URN and the name together. -/
def Unreached (r : Registry) (urn : Option String) (name : String) : Prop :=
  ∀ u ∈ urn, ¬IsSchema r (u ++ ":" ++ name)

/-- No component begins with a bracket. -/
theorem components_bracket {rest : List Char} {offset : Nat} {parts : List (String × Option String)}
    (hsolid : Solid ('[' :: rest)) : components ('[' :: rest) offset ≠ .ok parts := by
  intro h
  obtain ⟨hne, hnames⟩ := components_names h
  have hscan := hsolid.scan_boundary (b := ⟨0, none, false, [], none⟩) rfl rfl
  have hjoined := components_eq_ok h rfl hscan rfl
  exact joinParts_head hne hnames (by rw [← hjoined]; rfl)

/-- Where a schema reaches up to the brackets, no name is left for them. -/
theorem attributePath_reached {u : String} {rest : List Char} (hu : IsExtension r u)
    (hname : isAttributeName name.toList = true) (hsolid : Solid ('[' :: rest))
    (hreached : IsSchema r (u ++ ":" ++ name)) (segments : List Segment) :
    attributePath r (u.toList ++ ':' :: (name.toList ++ '[' :: rest)) ≠ .ok segments := by
  intro h
  have hpart := schemaPart_brackets hu hname rest
  have hbegins := hu.begins (':' :: (name.toList ++ '[' :: rest))
  have hword : String.ofList (u.toList ++ ':' :: name.toList) = u ++ ":" ++ name := by
    simp [← String.toList_inj]
  generalize htext : u.toList ++ ':' :: (name.toList ++ '[' :: rest) = text at *
  have hsplit : text = schemaPart text ++ '[' :: rest := by
    rw [hpart, ← htext]
    simp
  have hschema : ∃ ext, schemaOf r text = .ok (ext, '[' :: rest) := by
    rw [schemaOf_whole hsplit, hpart, hword]
    split_ifs with hknown hcore
    · exact ⟨_, rfl⟩
    · exact ⟨_, rfl⟩
    · exact absurd hreached (by simp [IsSchema, hknown, hcore])
  obtain ⟨ext, hschema⟩ := hschema
  simp only [attributePath, hbegins, if_true, hschema, bind, Except.bind, List.isEmpty_cons,
    Bool.false_eq_true, if_false] at h
  split at h
  case h_1 => cases h
  case h_2 hparts => exact components_bracket hsolid hparts

/-- What stands behind the first name, from its brackets on. -/
theorem joinParts_brackets {ps : List (String × Option String)}
    (hps : ∀ p ∈ (name, some filter) :: ps, IsPart p) : ∃ rest, Solid ('[' :: rest) ∧
      joinParts ((name, some filter) :: ps) = name.toList ++ '[' :: rest := by
  obtain ⟨hpart, hps⟩ := List.forall_mem_cons.mp hps
  have hbrackets : Solid ('[' :: (filter.toList ++ [']'])) := .brackets (hpart.filter filter rfl)
  cases ps with
  | nil => exact ⟨_, hbrackets, by simp [joinParts, partText]⟩
  | cons q ps =>
    have hdot : Solid ['.'] := .plain (by decide) (by decide)
    have hrest := hbrackets.append (hdot.append (solid_joinParts hps))
    exact ⟨_, hrest, by simp [joinParts, partText]⟩

/-- The segments of a path that has brackets behind its first name. -/
theorem attributePath_selected {ps : List (String × Option String)} {qs segments : List Segment}
    (hurn : ∀ u ∈ urn, IsExtension r u) (hps : ∀ p ∈ (name, some filter) :: ps, IsPart p)
    (hqs : segmentsOf ((name, some filter) :: ps) = .ok qs) :
    attributePath r (schemaText urn ++ joinParts ((name, some filter) :: ps)) = .ok segments ↔
      Unreached r urn name ∧ segments = (urn.map Segment.name).toList ++ qs := by
  have hname : isAttributeName name.toList = true := (hps _ List.mem_cons_self).name
  cases urn with
  | none =>
    have hnames := attributePath_names (r := r) (by simp) hps hqs
    simp [schemaText, hnames, Unreached, eq_comm]
  | some u =>
    have hu := hurn u rfl
    obtain ⟨rest, hsolid, hjoin⟩ := joinParts_brackets hps
    have htext : schemaText (some u) ++ joinParts ((name, some filter) :: ps) =
        u.toList ++ ':' :: joinParts ((name, some filter) :: ps) := by simp [schemaText]
    by_cases hreached : IsSchema r (u ++ ":" ++ name)
    · have hrefused := attributePath_reached hu hname hsolid hreached segments
      rw [← hjoin, ← htext] at hrefused
      exact iff_of_false hrefused fun h => h.1 u rfl hreached
    · have hpart : String.ofList (schemaPart (u.toList ++ ':' ::
          joinParts ((name, some filter) :: ps))) = u ++ ":" ++ name := by
        rw [hjoin, schemaPart_brackets hu hname]
        simp [← String.toList_inj]
      have hfree := hreached
      rw [← hpart, IsSchema, not_or, Bool.not_eq_true, Bool.not_eq_true] at hfree
      have hread := attributePath_qualified (by simp) hu hps hqs rfl hfree.1 hfree.2
      rw [htext, hread]
      simp [Unreached, hreached, eq_comm]

/-! ### The texts -/

theorem solid_schemaText (hurn : ∀ u ∈ urn, IsExtension r u) : Solid (schemaText urn) := by
  cases urn with
  | none => exact .nil
  | some u => exact (Solid.ofLead (hurn u rfl).lead).append (.plain (by decide) (by decide))

/-- A path begins with a character of its URN or of its name. -/
theorem head?_schemaText (hurn : ∀ u ∈ urn, IsExtension r u)
    (hname : isAttributeName name.toList = true) (rest : List Char) :
    ∃ c, (schemaText urn ++ (name.toList ++ rest)).head? = some c ∧ isLeadChar c = true := by
  have hletters := lead_of_qualified (Filter.isAttributeName_qualified hname)
  have hlead : (schemaText urn ++ name.toList).all isLeadChar = true := by
    cases urn with
    | none => simpa [schemaText] using hletters
    | some u =>
      have hcolon : isLeadChar ':' = true := by decide
      simpa [schemaText, hcolon, (hurn u rfl).lead] using hletters
  have hne : schemaText urn ++ name.toList ≠ [] := by
    simp [Filter.ne_nil_of_isAttributeName hname]
  obtain ⟨c, more, hfront⟩ := List.exists_cons_of_ne_nil hne
  rw [hfront, List.all_cons, Bool.and_eq_true] at hlead
  refine ⟨c, ?_, hlead.1⟩
  rw [← List.append_assoc, hfront]
  rfl

/-- The leading path of a selection with a test behind it ends with the name that is tested. -/
theorem leads_narrowed {sub : String} (hurn : ∀ u ∈ urn, IsExtension r u)
    (hparts : ∀ p ∈ [(name, some filter), (sub, none)], IsPart p) :
    Leads (schemaText urn ++ joinParts [(name, some filter), (sub, none)]) := by
  have hname : isAttributeName name.toList = true := (hparts (name, some filter) (by simp)).name
  have hsub : isAttributeName sub.toList = true := (hparts (sub, none) (by simp)).name
  have htext : schemaText urn ++ joinParts [(name, some filter), (sub, none)] =
      schemaText urn ++ (name.toList ++ '[' :: (filter.toList ++ ']' :: '.' :: sub.toList)) := by
    simp [joinParts, partText]
  obtain ⟨c, hhead, hc⟩ :=
    head?_schemaText hurn hname ('[' :: (filter.toList ++ ']' :: '.' :: sub.toList))
  refine ⟨(solid_schemaText hurn).append (solid_joinParts hparts), ?_, ?_, ?_⟩
  · simp [htext]
  · rw [htext, hhead]
    rintro ⟨⟩
    exact absurd hc (by decide)
  · have hends : schemaText urn ++ joinParts [(name, some filter), (sub, none)] =
        schemaText urn ++ (name.toList ++ '[' :: (filter.toList ++ [']', '.'])) ++ sub.toList := by
      simp [htext]
    rw [hends, List.getLast?_append_of_ne_nil _ (Filter.ne_nil_of_isAttributeName hsub)]
    intro hlast
    exact Filter.not_mem_of_isAttributeName hsub (c := ']') rfl (List.mem_of_getLast? hlast)

variable {f t : Filter} {cs behind : List Char} {sub text : String} {e : Expression}

theorem isPart_filter (hname : isAttributeName name.toList = true)
    (hread : Filter.parse filter = .ok f) : IsPart (name, some filter) := by
  rw [← String.ofList_toList (s := filter)] at hread ⊢
  exact isPart_brackets hname hread

/-- A name with a filter in brackets behind it. -/
theorem parse_selected (hurn : ∀ u ∈ urn, IsExtension r u)
    (hname : isAttributeName name.toList = true) (hread : Filter.parse filter = .ok f)
    (htext : text.toList = schemaText urn ++ (name.toList ++ '[' :: (filter.toList ++ [']'])))
    (hlen : utf8Length text.toList ≤ greatestLength) :
    parse r text = .ok e ↔ Unreached r urn name ∧
      e = ⟨(urn.map Segment.name).toList ++ [.selection name f.bracketed.toText]⟩ := by
  have hpart : ∀ p ∈ [(name, some filter)], IsPart p := by
    simpa using isPart_filter hname hread
  have hqs : segmentsOf [(name, some filter)] = .ok [.selection name f.bracketed.toText] :=
    segmentsOf_brackets.mpr ⟨f, [], hread, rfl, rfl⟩
  have hjoin : text.toList = schemaText urn ++ joinParts [(name, some filter)] := by
    simp [htext, joinParts, partText]
  have hsolid : Solid text.toList := by
    rw [hjoin]
    exact (solid_schemaText hurn).append (solid_joinParts hpart)
  have hne : text.toList ≠ [] := by simp [htext]
  rw [parse_visible hsolid.trimmed hne, parseTrimmed_path hsolid hne, hjoin,
    attributePath_selected hurn hpart hqs]
  obtain ⟨segments⟩ := e
  simp [← hjoin, hlen]

/-- A leading path with more behind it, which may be a test of its last name. -/
theorem parseTrimmed_attaches {front back : List Char} (hf : Leads front)
    (hall : Balanced (front ++ back)) (hstart : ∀ c ∈ back.head?, endsLead c = true)
    (hvisible : EndsVisible back) :
    parseTrimmed r (front ++ back) = attachOr r (front ++ back) front (trimBlanks back) := by
  have hback : (trimBlanks back).isEmpty = false := by
    obtain ⟨before, c, rfl, hc⟩ := hvisible
    rw [EndsVisible.trimBlanks ⟨before, c, rfl, hc⟩, List.isEmpty_eq_false_iff]
    intro hnil
    rw [skipBlanks_eq_nil.mp hnil c (by simp)] at hc
    cases hc
  rw [parseTrimmed_lead (leadEnd_append hf.solid hall hstart)]
  simp [hf.nonempty, hf.first, hf.last, hback]

/-- A test that ends the segments is attached behind the brackets. -/
theorem attachOr_narrowed {front : List Char} (hurn : ∀ u ∈ urn, IsExtension r u)
    (ht : IsTest cs sub behind t) (hlen : utf8Length cs ≤ greatestLength)
    (hfront : attributePath r front =
      .ok ((urn.map Segment.name).toList ++ [.selection name filter, .name sub]))
    (whole : List Char) : attachOr r whole front (trimBlanks behind) =
      .ok ((urn.map Segment.name).toList ++ [.selection name filter, .test t.toText]) := by
  have hwords : sub ++ " " ++ String.ofList (trimBlanks behind) =
      String.ofList (sub.toList ++ ' ' :: trimBlanks behind) := by
    simp [← String.toList_inj]
  obtain ⟨hspaced, hshorter⟩ := ht.spaced
  have hread : Filter.parse (sub ++ " " ++ String.ofList (trimBlanks behind)) = .ok t := by
    rw [hwords]
    exact hspaced.parse (hshorter.trans hlen)
  have hattach := attach?_read ((urn.map Segment.name).toList ++ [.selection name filter])
    (isUrn_name ht.letters) hread
  have hlast : ∀ p ∈ [(name, some filter)].getLast?, p.2 ≠ none := by simp
  have hattached : attached ((urn.map Segment.name).toList ++ [.selection name filter]) t.toText =
      (urn.map Segment.name).toList ++ [.selection name filter] ++ [.test t.toText] :=
    attached_selection hurn hlast t.toText
  rw [ht.path, Option.map_some, hattached] at hattach
  simp only [List.append_assoc, List.cons_append, List.nil_append] at hattach
  simp only [attachOr, hfront, hattach, bind, Except.bind]

/-- A name with a filter in brackets behind it, and a test behind these. -/
theorem parse_narrowed (hurn : ∀ u ∈ urn, IsExtension r u)
    (hname : isAttributeName name.toList = true) (hread : Filter.parse filter = .ok f)
    (ht : IsTest cs sub behind t)
    (htext : text.toList =
      schemaText urn ++ (name.toList ++ '[' :: (filter.toList ++ ']' :: '.' :: cs)))
    (hlen : utf8Length text.toList ≤ greatestLength) :
    parse r text = .ok e ↔ Unreached r urn name ∧
      e = ⟨(urn.map Segment.name).toList ++
        [.selection name f.bracketed.toText, .test t.toText]⟩ := by
  have hshort : utf8Length cs ≤ greatestLength := by
    rw [htext] at hlen
    simp only [utf8Length_append, utf8Length_cons] at hlen
    omega
  have hbrackets := isPart_filter hname hread
  have hpart : ∀ p ∈ [(name, some filter)], IsPart p := by simpa using hbrackets
  have hparts : ∀ p ∈ [(name, some filter), (sub, none)], IsPart p := by
    simpa using ⟨hbrackets, isPart_name ht.letters⟩
  have hqs : segmentsOf [(name, some filter), (sub, none)] =
      .ok [.selection name f.bracketed.toText, .name sub] :=
    segmentsOf_brackets.mpr ⟨f, _, hread, segmentsOf_last.mpr rfl, rfl⟩
  have hsplit : text.toList =
      schemaText urn ++ joinParts [(name, some filter), (sub, none)] ++ behind := by
    simp [htext, ht.text, joinParts, partText]
  have hleads := leads_narrowed hurn hparts
  -- the test behind the brackets closes all that it opens, so the lead ends where the path does
  have hbalanced : Balanced (schemaText urn ++ joinParts [(name, some filter), (sub, none)] ++
      behind) := by
    have hfront := (solid_schemaText hurn).append (solid_joinParts hpart)
    have htest : Balanced ('.' :: cs) :=
      .cons (by decide) (by simpa using balanced_of_parse (ht.parse hshort))
    rw [← hsplit, htext]
    simpa [joinParts, partText] using hfront.balanced.append htest
  have hends : ∀ c ∈ behind.head?, endsLead c = true := by
    obtain ⟨c, more, rfl, hc⟩ := ht.blank
    simpa using endsLead_of_isBlank hc
  have hvisible : EndsVisible behind := Filter.scanTest_visible _ ht.scan
  have htrim : Trimmed text.toList := by
    refine (hsplit ▸ hvisible.append _).trimmed ?_
    rw [hsplit, List.head?_append_of_ne_nil _ hleads.nonempty]
    exact hleads.solid.trimmed.first
  rw [parse_visible htrim (by simp [htext]), hsplit,
    parseTrimmed_attaches hleads hbalanced hends hvisible]
  have hpath {segments : List Segment} : attributePath r (schemaText urn ++
      joinParts [(name, some filter), (sub, none)]) = .ok segments ↔ _ :=
    attributePath_selected hurn hparts hqs
  by_cases hfree : Unreached r urn name
  · have hattached := attachOr_narrowed hurn ht hshort (hpath.mpr ⟨hfree, rfl⟩)
    rw [hattached]
    obtain ⟨segments⟩ := e
    simp [hfree, ← hsplit, hlen, eq_comm]
  · have hfails := attachOr_failed (r := r) text.toList (trimBlanks behind)
      (fun segments h => hfree (hpath.mp h).1) e.segments
    rw [← hsplit]
    simp [hfree, hfails]

/-- A text that begins with a parenthesis is one filter. -/
theorem parse_parenthesis {rest : List Char} (htext : text.toList = '(' :: rest)
    (htrim : Trimmed text.toList) : parse r text = .ok e ↔
      ∃ g, Filter.parse text = .ok g ∧ e = ⟨[.test g.bracketed.toText]⟩ := by
  refine ⟨parse_opening htext htrim, ?_⟩
  rintro ⟨g, hg, rfl⟩
  have hbalanced : Balanced ([] ++ text.toList) := by simpa using balanced_of_parse hg
  have hgroup : parseTrimmed r ([] ++ text.toList) = generalFilter text.toList :=
    parseTrimmed_lead (leadEnd_append .nil hbalanced (by simp [htext]))
  rw [parse_visible htrim (by simp [htext])]
  exact ⟨(Filter.parse_eq_ok.mp hg).1, hgroup.trans (generalFilter_reads (by simpa using hg))⟩

end Expression

end Roster
