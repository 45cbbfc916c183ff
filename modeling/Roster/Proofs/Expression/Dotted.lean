import Roster.Proofs.Expression.Enclosed

/-!
Dotted and bracketed spellings. The text of a filter and that of its bracket form are read as the
same expression: as one selection where a single sub-attribute or a single selection stands alone,
and as one filter where more is written. For this no schema may reach into the names that stand
behind another one.
-/

namespace Roster

open Filter (Closes closes_nil closes_blanks stops_cons greatestDepth greatestLength)

/-- Texts that are the same up to case are so in front of their last colon and behind it. -/
theorem sameName_lastColon {name urn component : String} {front last : List Char}
    (hname : name.toList = front ++ ':' :: last) (hlast : ':' ∉ last)
    (hcomponent : ':' ∉ component.toList) (h : sameName name (urn ++ ":" ++ component) = true) :
    sameName (String.ofList front) urn = true ∧ sameName (String.ofList last) component = true := by
  have hcolon : ':'.toLower = ':' := rfl
  have hsplit : front.map Char.toLower ++ ':' :: last.map Char.toLower =
      foldCase urn ++ ':' :: foldCase component := by
    rw [sameName_iff] at h
    simpa [foldCase, hname, hcolon] using h
  have hnone : ':' ∉ last.map Char.toLower := by
    have hplain : ':' ∉ foldCase (String.ofList last) := by
      rwa [mem_foldCase rfl, String.toList_ofList]
    rwa [foldCase, String.toList_ofList] at hplain
  have hparts : Filter.splitLastColon (front.map Char.toLower ++ ':' :: last.map Char.toLower) =
      (front.map Char.toLower, last.map Char.toLower) := Filter.splitLastColon_append hnone
  rw [hsplit, Filter.splitLastColon_append (fun hmem => hcomponent ((mem_foldCase rfl).mp hmem))]
    at hparts
  obtain ⟨hfront, hback⟩ := Prod.mk.inj hparts
  simp only [sameName_iff]
  constructor
  · rw [hfront, foldCase, String.toList_ofList]
  · rw [hback, foldCase, String.toList_ofList]

namespace Expression

variable {r : Registry}

/-! ### Schemas that are kept apart -/

/-- No extension continues another schema with one more component, and none has a dot behind its
last colon. -/
structure SchemasApart (r : Registry) : Prop where
  continues : ∀ e ∈ r.extensions, ∀ urn component : String, IsSchema r urn →
    ':' ∉ component.toList → sameName e.schema.id (urn ++ ":" ++ component) = false
  dotless : ∀ e ∈ r.extensions, ∀ front last : List Char,
    e.schema.id.toList = front ++ ':' :: last → ':' ∉ last → '.' ∉ last

theorem isKnownExtension_eq_true {urn : String} :
    r.isKnownExtension urn = true ↔ ∃ e ∈ r.extensions, sameName e.schema.id urn = true :=
  List.any_eq_true

theorem isSchema_congr {a b : String} (h : sameName a b = true) : IsSchema r a ↔ IsSchema r b := by
  have hknown : r.isKnownExtension a = true ↔ r.isKnownExtension b = true := by
    simp only [isKnownExtension_eq_true, sameName_iff, sameName_iff.mp h]
  rw [IsSchema, IsSchema, hknown, isCoreSchema_sameName h]

/-- What stands in front of the names of the core schemas. -/
def coreBase : String := "urn:ietf:params:scim:schemas:core:2.0"

/-- It has a dot behind its last colon, so no extension is registered under it. -/
theorem SchemasApart.not_base (hr : SchemasApart r) : ¬IsSchema r coreBase := by
  rintro (hknown | hcore)
  · obtain ⟨e, he, hsame⟩ := isKnownExtension_eq_true.mp hknown
    have hcolon : ':' ∈ e.schema.id.toList := by
      rw [← mem_foldCase rfl, sameName_iff.mp hsame]
      decide
    obtain ⟨front, last, hid, hlast⟩ := Filter.exists_lastColon hcolon
    have hversion : sameName (String.ofList last) "2.0" = true := by
      have hsplit : coreBase = "urn:ietf:params:scim:schemas:core" ++ ":" ++ "2.0" := by
        simp [coreBase]
      rw [hsplit] at hsame
      exact (sameName_lastColon hid hlast (by decide) hsame).2
    refine hr.dotless e he front last hid hlast ?_
    have hdot : '.' ∈ foldCase (String.ofList last) := by
      rw [sameName_iff.mp hversion]
      decide
    rwa [mem_foldCase rfl, String.toList_ofList] at hdot
  · exact absurd hcore (by decide)

theorem core_lastColon : Urn.user.toList = coreBase.toList ++ ':' :: "User".toList ∧
    Urn.group.toList = coreBase.toList ++ ':' :: "Group".toList := by
  simp [Urn.user, Urn.group, coreBase]

/-- No schema goes on behind another one with names alone. -/
theorem SchemasApart.not_longer (hr : SchemasApart r) {urn : String} (hurn : IsSchema r urn)
    (component : String) (hcomponent : ':' ∉ component.toList) :
    ¬IsSchema r (urn ++ ":" ++ component) := by
  rintro (hknown | hcore)
  · obtain ⟨e, he, hsame⟩ := isKnownExtension_eq_true.mp hknown
    rw [hr.continues e he urn component hurn hcomponent] at hsame
    cases hsame
  · have hbase : sameName coreBase urn = true := by
      rw [← String.ofList_toList (s := coreBase)]
      rcases Bool.or_eq_true_iff.mp hcore with hsame | hsame
      · exact (sameName_lastColon core_lastColon.1 (by decide) hcomponent hsame).1
      · exact (sameName_lastColon core_lastColon.2 (by decide) hcomponent hsame).1
    exact hr.not_base ((isSchema_congr hbase).mpr hurn)

/-! ### Paths behind a schema -/

variable {f : Filter} {a : AttributePath}

theorem unwrapped?_urn {text : List Char} (h : beginsWith "urn:".toList text = true) :
    unwrapped? text = none := by
  refine unwrapped?_eq_none fun hbracket => ?_
  obtain ⟨rest, rfl⟩ := List.head?_eq_some_iff.mp hbracket
  cases h

section Spelled

variable {lead : List Char} {urn : String} {ps : List (String × Option String)}

theorem Spelling.behind (h : Spelling lead (some urn) ps) :
    lead = urn.toList ++ ':' :: joinParts ps := by
  simp [h.text, schemaText]

theorem Spelling.begins (h : Spelling lead (some urn) ps) :
    beginsWith "urn:".toList lead = true := by
  rw [h.behind, List.append_cons]
  exact beginsWith_append (h.schema urn rfl).2 _

theorem Spelling.schemaPart (h : Spelling lead (some urn) ps) :
    schemaPart lead = urn.toList ++ ':' :: schemaPart (joinParts ps) := by
  have hplain : ∀ c ∈ urn.toList, (c != '[') = true := by
    intro c hc
    rw [bne_iff_ne]
    rintro rfl
    exact absurd (List.all_eq_true.mp (h.schema urn rfl).1 '[' hc) (by decide)
  rw [h.behind, Expression.schemaPart, List.takeWhile_append_of_pos hplain]
  rfl

/-- The URN in front of the names is the schema that is found: one that reaches into the names
would go on behind it. -/
theorem Spelling.schemaOf (h : Spelling lead (some urn) ps) (hr : SchemasApart r)
    (hurn : IsSchema r urn) :
    schemaOf r lead = .ok ((some urn).filter r.isKnownExtension, joinParts ps) := by
  have hcolon := colon_not_mem_schemaPart h.names
  have hwhole : ¬IsSchema r (String.ofList (Expression.schemaPart lead)) := by
    have hlonger := hr.not_longer hurn (String.ofList (Expression.schemaPart (joinParts ps)))
      (by rwa [String.toList_ofList])
    have hjoin : String.ofList (Expression.schemaPart lead) =
        urn ++ ":" ++ String.ofList (Expression.schemaPart (joinParts ps)) := by
      simp [← String.toList_inj, h.schemaPart]
    rwa [hjoin]
  simp only [IsSchema, not_or, Bool.not_eq_true] at hwhole
  obtain ⟨stops, -, hlast⟩ := schemaOf_lastColon h.behind h.schemaPart hcolon hwhole.1 hwhole.2
  rw [hlast, String.ofList_toList]
  cases hknown : r.isKnownExtension urn with
  | true => simp [Option.filter, hknown]
  | false =>
    have hcore : isCoreSchema urn = true := by simpa [IsSchema, hknown] using hurn
    simp [Option.filter, hknown, hcore]

end Spelled

/-- The components of a path are read behind its schema, which is dropped unless it is that of an
extension. -/
theorem attributePath_spelling (hr : SchemasApart r) {lead : List Char} {schema : Option String}
    {ps : List (String × Option String)} {qs : List Segment} (h : Spelling lead schema ps)
    (hne : ps ≠ []) (hps : ∀ p ∈ ps, IsPart p) (hschema : ∀ urn ∈ schema, IsSchema r urn)
    (hqs : segmentsOf ps = .ok qs) :
    attributePath r lead =
      .ok (((schema.filter r.isKnownExtension).map Segment.name).toList ++ qs) := by
  cases schema with
  | none =>
    have htext : lead = joinParts ps := h.text
    rw [htext]
    exact attributePath_names hne hps hqs
  | some urn =>
    have hfound := h.schemaOf hr (hschema urn rfl)
    exact attributePath_parts hne hps hqs h.begins (unwrapped?_urn h.begins) hfound

/-- The last name of a path. -/
def lastName (a : AttributePath) : String :=
  a.sub.getD a.name

/-- The component in front of the last name, if there is one. -/
def ownerParts (a : AttributePath) : List (String × Option String) :=
  (a.sub.map fun _ => (a.name, none)).toList

/-- The names of a path as components. -/
def pathParts (a : AttributePath) : List (String × Option String) :=
  ownerParts a ++ [(lastName a, none)]

theorem spelled_of_wellFormed (h : a.WellFormed) : Spelled a where
  name := h.name
  sub := h.sub
  schema := fun urn hurn => ⟨lead_of_qualified (h.schema urn hurn).1, (h.schema urn hurn).2⟩

theorem isAttributeName_lastName (h : a.WellFormed) :
    isAttributeName (lastName a).toList = true := by
  rw [lastName]
  cases hsub : a.sub with
  | none => exact h.name
  | some s => exact h.sub s hsub

theorem toText_lastName (a : AttributePath) :
    ∃ front, a.toText.toList = front ++ (lastName a).toList := by
  obtain ⟨schema, name, sub⟩ := a
  rw [toText_spelled]
  cases sub with
  | none => exact ⟨schemaText schema, by simp [Filter.localPart, lastName]⟩
  | some s =>
    exact ⟨schemaText schema ++ name.toList ++ ['.'], by simp [Filter.localPart, lastName]⟩

theorem attributePath_test (hr : SchemasApart r) (h : a.WellFormed)
    (hschema : ∀ urn ∈ a.schema, IsSchema r urn) :
    attributePath r a.toText.toList =
      .ok (pathSegments (a.schema.filter r.isKnownExtension) (pathParts a)) := by
  have hspelled := spelled_of_wellFormed h
  have hnames : ∀ p ∈ pathParts a, isAttributeName p.1.toList = true ∧ p.2 = none := by
    intro p hp
    rcases List.mem_append.mp hp with hp | hp
    · obtain ⟨s, -, rfl⟩ := Option.map_eq_some_iff.mp (Option.mem_toList.mp hp)
      exact ⟨h.name, rfl⟩
    · cases List.mem_singleton.mp hp
      exact ⟨isAttributeName_lastName h, rfl⟩
  have htext : a.toText.toList = schemaText a.schema ++ joinParts (pathParts a) := by
    obtain ⟨schema, name, sub⟩ := a
    rw [toText_spelled]
    cases sub <;>
      simp [Filter.localPart, pathParts, ownerParts, lastName, joinParts, partText]
  have hspelling : Spelling a.toText.toList a.schema (pathParts a) :=
    ⟨htext, fun p hp => (hnames p hp).1, hspelled.schema⟩
  have hparts : ∀ p ∈ pathParts a, IsPart p := by
    intro p hp
    exact ⟨(hnames p hp).1, by simp [(hnames p hp).2]⟩
  have hsegments : segmentsOf (pathParts a) = .ok ((pathParts a).map segment) :=
    segmentsOf_reread fun p hp => by simp [(hnames p hp).2]
  exact attributePath_spelling hr hspelling (by simp [pathParts]) hparts hschema hsegments

/-! ### Filters that are read back -/

/-- A filter within the limits of reading, none of whose names is `not`, and whose URNs name
schemas. -/
structure Readable (r : Registry) (f : Filter) : Prop where
  wellFormed : f.WellFormed
  length : utf8Length f.toText.toList ≤ greatestLength
  depth : f.depth ≤ greatestDepth
  names : ∀ a ∈ f.paths, sameName a.name "not" = false ∧ ∀ s ∈ a.sub, sameName s "not" = false
  schemas : ∀ a ∈ f.paths, ∀ urn ∈ a.schema, IsSchema r urn

theorem Readable.parse_toText (h : Readable r f) : Filter.parse f.toText = .ok f :=
  h.wellFormed.parse_toText h.length h.depth fun a ha => isNot_of_name (h.names a ha).1

theorem Readable.lastName (h : Readable r f) (ha : a ∈ f.paths) :
    sameName (lastName a) "not" = false := by
  obtain ⟨hname, hsub⟩ := h.names a ha
  rw [Expression.lastName]
  cases hs : a.sub with
  | none => exact hname
  | some s => exact hsub s hs

/-- Within the limits the bracket form is read as well. -/
theorem Readable.bracketed (h : Readable r f)
    (hlength : utf8Length f.bracketed.toText.toList ≤ greatestLength)
    (hdepth : f.bracketed.depth ≤ greatestDepth) : Readable r f.bracketed where
  wellFormed := h.wellFormed.bracketed
  length := hlength
  depth := hdepth
  names := by
    intro b hb
    obtain ⟨a, ha, ⟨hname, -, hsub⟩ | ⟨s, hs, rfl⟩⟩ := Filter.paths_bracketed f b hb
    · rw [hname]
      exact ⟨(h.names a ha).1, fun s hs => (h.names a ha).2 s (hsub s hs)⟩
    · exact ⟨(h.names a ha).2 s hs, by simp [AttributePath.ofName]⟩
  schemas := by
    intro b hb urn hurn
    obtain ⟨a, ha, ⟨-, hschema, -⟩ | ⟨s, hs, rfl⟩⟩ := Filter.paths_bracketed f b hb
    · rw [hschema] at hurn
      exact h.schemas a ha urn hurn
    · cases hurn

theorem Readable.generalFilter (h : Readable r f) :
    generalFilter f.toText.toList = .ok [.test f.bracketed.toText] := by
  have hfilter : normalizeFilter f.toText.toList = .ok f.bracketed.toText := by
    apply normalizeFilter_eq_ok.mpr
    exact ⟨f, by rw [String.ofList_toList, h.parse_toText], rfl⟩
  rw [Expression.generalFilter, hfilter]
  rfl

theorem Readable.inner (h : Readable r (.select a f)) : Readable r f where
  wellFormed := h.wellFormed.2.2
  length := by
    have hlength := h.length
    simp only [Filter.toText, String.toList_append, utf8Length_append] at hlength
    omega
  depth := by
    have hdepth : f.depth + 1 ≤ greatestDepth := h.depth
    omega
  names := fun b hb => h.names b (List.mem_cons_of_mem a hb)
  schemas := fun b hb => h.schemas b (List.mem_cons_of_mem a hb)

/-! ### Tests -/

/-- A test in front is attached to its path, or the whole text is one filter. -/
theorem parseTrimmed_test_front (hr : SchemasApart r) (h : Readable r f)
    (hpath : f.leftmost.testPath? = some a) :
    ∃ c more, f.toText.toList = a.toText.toList ++ ' ' :: c :: more ∧
      parseTrimmed r f.toText.toList = .ok
        ((attach? (pathSegments (a.schema.filter r.isKnownExtension) (pathParts a))
          (c :: more)).getD [.test f.bracketed.toText]) := by
  have ha : a.WellFormed := Filter.wellFormed_testPath h.wellFormed.leftmost hpath
  have hmem : a ∈ f.paths := Filter.paths_leftmost f (Filter.mem_paths_of_testPath? hpath)
  have hfront := attributePath_test hr ha (h.schemas a hmem)
  have hleads : Leads a.toText.toList :=
    .ofQualified (Filter.toText_ne_nil ha) (Filter.toText_qualifiedChars ha)
  have hbalanced := balanced_filter h.wellFormed
  have hvisible := Filter.endsVisible_toText f
  have hgeneral := h.generalFilter
  obtain ⟨c, more, htext, hc⟩ := Filter.toText_test hpath
  refine ⟨c, more, htext, ?_⟩
  rw [htext] at hbalanced hvisible hgeneral ⊢
  rw [parseTrimmed_leads hleads hbalanced hvisible hc]
  simp only [attachOr, hfront, bind, Except.bind, hgeneral]
  split
  case h_1 segments hattach => rw [hattach, Option.getD_some]
  case h_2 hattach => rw [hattach, Option.getD_none]

/-- Where what stands behind the first path is one test up to the end, that is all of the filter. -/
theorem Readable.first_test (h : Readable r f) (hpath : f.leftmost.testPath? = some a)
    {c : Char} {more blanks : List Char} {b : AttributePath} {g : Filter}
    (htext : f.toText.toList = a.toText.toList ++ ' ' :: c :: more)
    (hscan : Filter.scanTest b (' ' :: c :: more) = .ok (g, blanks))
    (hblanks : skipBlanks blanks = []) : f = g.retarget a := by
  have ha : a.WellFormed := Filter.wellFormed_testPath h.wellFormed.leftmost hpath
  have hmem : a ∈ f.paths := Filter.paths_leftmost f (Filter.mem_paths_of_testPath? hpath)
  obtain ⟨-, rest, hwithin, -⟩ := Filter.parse_eq_ok.mp h.parse_toText
  obtain ⟨first, left, hfirst, hwhole⟩ := Filter.scanFilter_first hwithin
  rw [htext] at hfirst
  have hown := (spelled_of_wellFormed ha).operand_test (isNot_of_name (h.names a hmem).1)
    (stops_cons rfl) (by simp) hfirst
  -- a test is read the same behind every path
  rw [Filter.scanTest_retarget b, hscan] at hown
  cases hown
  have hcloses : Closes blanks := by simpa using closes_blanks hblanks closes_nil
  exact (hwhole hcloses).1

/-- Where a filter joins several operands, what stands behind its first path is not one test. -/
theorem attach?_joined (h : Readable r f) (hpath : f.leftmost.testPath? = some a)
    (hoperand : f.isOperand = false) {ext : Option String} {c : Char} {more : List Char}
    (htext : f.toText.toList = a.toText.toList ++ ' ' :: c :: more) :
    attach? (pathSegments ext (pathParts a)) (c :: more) = none := by
  have ha : a.WellFormed := Filter.wellFormed_testPath h.wellFormed.leftmost hpath
  rw [Option.eq_none_iff_forall_ne_some]
  intro result hattach
  obtain ⟨front, last, g, b, hsegments, -, hread, hg, -⟩ := attach?_eq_some hattach
  rw [pathParts, pathSegments_snoc] at hsegments
  cases (List.append_inj' hsegments rfl).2
  have hwords : lastName a ++ " " ++ String.ofList (c :: more) =
      String.ofList ((lastName a).toList ++ ' ' :: c :: more) := by
    simp [← String.toList_inj]
  rw [hwords] at hread
  obtain ⟨-, blanks, hscan, hblanks⟩ :=
    Filter.parse_test (isAttributeName_lastName ha) hread hg
  have hwhole := h.first_test hpath htext hscan hblanks
  have halone : (g.retarget a).isOperand = true := by
    cases g <;> cases hg <;> rfl
  rw [hwhole, halone] at hoperand
  cases hoperand

/-- One test alone is that of the last name, and goes to what stands in front of that. -/
theorem attach?_alone (h : Readable r f) (hpath : f.testPath? = some a) {ext : Option String}
    {c : Char} {more : List Char}
    (htext : f.toText.toList = a.toText.toList ++ ' ' :: c :: more) :
    attach? (pathSegments ext (pathParts a)) (c :: more) =
      some (attached (pathSegments ext (ownerParts a))
        (f.retarget (.ofName (lastName a))).toText) := by
  have ha : a.WellFormed := Filter.wellFormed_testPath h.wellFormed hpath
  have hname := isAttributeName_lastName ha
  have hnot := h.lastName (Filter.mem_paths_of_testPath? hpath)
  have htest := Filter.testPath?_retarget hpath (.ofName (lastName a))
  have hwell := h.wellFormed.retarget hpath (.ofName hname)
  have hwords : (f.retarget (.ofName (lastName a))).toText.toList =
      (lastName a).toList ++ ' ' :: c :: more := by
    cases f <;> cases hpath <;> simpa [Filter.toText, Filter.retarget, toText_ofName] using htext
  have hlength : utf8Length (f.retarget (.ofName (lastName a))).toText.toList ≤
      greatestLength := by
    obtain ⟨front, hfront⟩ := toText_lastName a
    have hwhole := h.length
    rw [htext, hfront, utf8Length_append, utf8Length_append] at hwhole
    rw [hwords, utf8Length_append]
    omega
  have hread := parse_toText_test hwell htest hnot hlength
  have hjoin : (f.retarget (.ofName (lastName a))).toText =
      lastName a ++ " " ++ String.ofList (c :: more) := by
    simp [← String.toList_inj, hwords]
  rw [pathParts, pathSegments_snoc, segment, attach?_read _ (isUrn_name hname) (hjoin ▸ hread),
    htest]
  rfl

/-! ### Reading -/

/-- The segments that a filter in bracket form is read as: those of a path where it is one selection
or one test of a name, and otherwise itself. -/
def readAs (r : Registry) : Filter → List Segment
  | .select a f => pathSegments (a.schema.filter r.isKnownExtension) [(a.name, some f.toText)]
  | .compare a op v => attached (pathSegments (a.schema.filter r.isKnownExtension) [])
      (Filter.compare (.ofName a.name) op v).toText
  | .present a => attached (pathSegments (a.schema.filter r.isKnownExtension) [])
      (Filter.present (.ofName a.name)).toText
  | f => [.test f.toText]

/-- A test is read as its bracket form: a selection where it has a sub-attribute. -/
theorem readAs_test (hname : isAttributeName a.name.toList = true) (hpath : f.testPath? = some a) :
    readAs r f.bracketed =
      attached (pathSegments (a.schema.filter r.isKnownExtension) (ownerParts a))
        (f.retarget (.ofName (lastName a))).toText := by
  cases hsub : a.sub with
  | none =>
    rw [Filter.bracketed_plain hpath hsub]
    cases f <;> cases hpath <;> simp [readAs, ownerParts, lastName, hsub, Filter.retarget]
  | some s =>
    rw [Filter.bracketed_dotted hpath hsub]
    simp [readAs, ownerParts, lastName, hsub, attached, pathSegments, segment, isUrn_name hname]

theorem parseTrimmed_alone (hr : SchemasApart r) (h : Readable r f) (hpath : f.testPath? = some a) :
    parseTrimmed r f.toText.toList = .ok (readAs r f.bracketed) := by
  have ha : a.WellFormed := Filter.wellFormed_testPath h.wellFormed hpath
  have hlead : f.leftmost.testPath? = some a := by
    rwa [Filter.leftmost_of_testPath? hpath]
  obtain ⟨c, more, htext, hread⟩ := parseTrimmed_test_front hr h hlead
  rw [hread, attach?_alone h hpath htext, Option.getD_some, readAs_test ha.name hpath]

/-- A selection alone is one segment behind its extension. -/
theorem parseTrimmed_select (hr : SchemasApart r) {g : Filter} (h : Readable r (.select a g)) :
    parseTrimmed r (Filter.select a g).toText.toList =
      .ok (readAs r (Filter.select a g).bracketed) := by
  obtain ⟨ha, hsub, hg⟩ := h.wellFormed
  have hspelled := spelled_of_wellFormed ha
  have htext : (Filter.select a g).toText.toList =
      schemaText a.schema ++ joinParts [(a.name, some g.toText)] := by
    obtain ⟨schema, name, sub⟩ := a
    cases hsub
    simp [Filter.toText, toText_spelled, Filter.localPart, joinParts, partText]
  have hspelling : Spelling (Filter.select a g).toText.toList a.schema
      [(a.name, some g.toText)] :=
    ⟨htext, by simpa using ha.name, hspelled.schema⟩
  have hpart : ∀ p ∈ [(a.name, some g.toText)], IsPart p := by
    simpa using ⟨ha.name, by simpa using balanced_filter hg⟩
  have hsegments : segmentsOf [(a.name, some g.toText)] =
      .ok [.selection a.name g.bracketed.toText] :=
    segmentsOf_brackets.mpr ⟨g, [], h.inner.parse_toText, rfl, rfl⟩
  have hschema : ∀ urn ∈ a.schema, IsSchema r urn := h.schemas a List.mem_cons_self
  rw [parseTrimmed_brackets h.wellFormed]
  exact attributePath_spelling hr hspelling (by simp) hpart hschema hsegments

/-- What is neither one test nor one selection is one filter. -/
theorem parseTrimmed_joined (hr : SchemasApart r) (h : Readable r f) (htest : f.testPath? = none)
    (hselect : ∀ a g, f ≠ .select a g) :
    parseTrimmed r f.toText.toList = .ok [.test f.bracketed.toText] := by
  have hjoins (hlead : f.leftmost ≠ f) : f.isOperand = false := by
    rw [Bool.eq_false_iff]
    intro hoperand
    exact hlead (Filter.leftmost_of_isOperand hoperand)
  have hfront {a : AttributePath} (hpath : f.leftmost.testPath? = some a) :
      parseTrimmed r f.toText.toList = .ok [.test f.bracketed.toText] := by
    have hoperand : f.isOperand = false := by
      apply hjoins
      intro hlead
      rw [hlead, htest] at hpath
      cases hpath
    obtain ⟨c, more, htext, hread⟩ := parseTrimmed_test_front hr h hpath
    rw [hread, attach?_joined h hpath hoperand htext, Option.getD_none]
  -- the operand that the text begins with decides what the leading path is
  cases hlead : f.leftmost with
  | compare a op v => exact hfront (by rw [hlead]; rfl)
  | present a => exact hfront (by rw [hlead]; rfl)
  | select a g =>
    have hoperand : f.isOperand = false := by
      apply hjoins
      intro hself
      exact hselect a g (hself.symm.trans hlead)
    rw [parseTrimmed_selected h.wellFormed hlead hoperand, h.generalFilter]
  | group g => rw [parseTrimmed_grouped h.wellFormed hlead, h.generalFilter]
  | not g =>
    obtain ⟨back, htext, -⟩ := f.toText_leftmost
    have hnot : f.toText.toList =
        "not".toList ++ ' ' :: '(' :: (g.toText.toList ++ ')' :: back) := by
      rw [htext, hlead, Filter.toText_not]
    rw [parseTrimmed_word h.wellFormed h.parse_toText rfl (by decide) hnot, htest,
      h.generalFilter]
    rfl
  | and g i => exact absurd f.isOperand_leftmost (by simp [hlead, Filter.isOperand])
  | or g i => exact absurd f.isOperand_leftmost (by simp [hlead, Filter.isOperand])

/-- Every filter is read from its text as what its bracket form says. -/
theorem parseTrimmed_readAs (hr : SchemasApart r) (h : Readable r f) :
    parseTrimmed r f.toText.toList = .ok (readAs r f.bracketed) := by
  cases f with
  | compare a op v => exact parseTrimmed_alone hr h rfl
  | present a => exact parseTrimmed_alone hr h rfl
  | select a g => exact parseTrimmed_select hr h
  | and g i => exact parseTrimmed_joined hr h rfl (by simp)
  | or g i => exact parseTrimmed_joined hr h rfl (by simp)
  | not g => exact parseTrimmed_joined hr h rfl (by simp)
  | group g => exact parseTrimmed_joined hr h rfl (by simp)

/-- The text of a filter that was read and the text of its bracket form are read as the same
expression, which the bracket form says. -/
theorem parse_bracketed (hr : SchemasApart r) {text : String} (hread : Filter.parse text = .ok f)
    (hschemas : ∀ a ∈ f.paths, ∀ urn ∈ a.schema, IsSchema r urn)
    (hnames : ∀ a ∈ f.paths, sameName a.name "not" = false ∧
      ∀ s ∈ a.sub, sameName s "not" = false)
    (hlength : utf8Length f.toText.toList ≤ greatestLength ∧
      utf8Length f.bracketed.toText.toList ≤ greatestLength)
    (hdepth : f.depth ≤ greatestDepth ∧ f.bracketed.depth ≤ greatestDepth) :
    parse r f.toText = .ok ⟨readAs r f.bracketed⟩ ∧
      parse r f.bracketed.toText = .ok ⟨readAs r f.bracketed⟩ := by
  have hwell : f.WellFormed := Filter.parse_wellFormed hread
  have hf : Readable r f := ⟨hwell, hlength.1, hdepth.1, hnames, hschemas⟩
  have hg : Readable r f.bracketed := hf.bracketed hlength.2 hdepth.2
  have hthis := parseTrimmed_readAs hr hf
  have hthat := parseTrimmed_readAs hr hg
  rw [f.bracketed_bracketed] at hthat
  exact ⟨(parse_toText hwell hlength.1).mpr hthis,
    (parse_toText hwell.bracketed hlength.2).mpr hthat⟩

theorem schemasApart_standard : SchemasApart .standard := by
  have hcolon : Urn.enterpriseUser.toList =
      "urn:ietf:params:scim:schemas:extension:enterprise:2.0".toList ++ ':' :: "User".toList := by
    simp [Urn.enterpriseUser]
  have honly : ∀ e ∈ Registry.standard.extensions, e.schema.id = Urn.enterpriseUser := by decide
  refine ⟨fun e he urn component hurn hcomponent => ?_, fun e he front last hid hlast => ?_⟩
  · rw [honly e he, Bool.eq_false_iff]
    intro hsame
    have hfront := (sameName_lastColon hcolon (by decide) hcomponent hsame).1
    have hbase := (isSchema_congr hfront).mpr hurn
    rw [IsSchema] at hbase
    exact absurd hbase (by decide)
  · rw [honly e he, hcolon] at hid
    have hsplit : Filter.splitLastColon (front ++ ':' :: last) = (front, last) :=
      Filter.splitLastColon_append hlast
    rw [← hid, Filter.splitLastColon_append (by decide)] at hsplit
    cases hsplit
    decide

/-- The comparison of a sub-attribute is read as a selection, dotted or in brackets. -/
theorem parse_bracketed_manager :
    let f : Filter :=
      .compare ⟨some Urn.enterpriseUser, "manager", some "displayName"⟩ .eq (.text "Jo")
    let e : Expression :=
      ⟨[.name Urn.enterpriseUser, .selection "manager" "displayName eq \"Jo\""]⟩
    SchemasApart .standard ∧
      f.toText = Urn.enterpriseUser ++ ":manager.displayName eq \"Jo\"" ∧
      f.bracketed.toText = Urn.enterpriseUser ++ ":manager[displayName eq \"Jo\"]" ∧
      parse .standard f.toText = .ok e ∧ parse .standard f.bracketed.toText = .ok e := by
  intro f e
  have hread : Filter.parse f.toText = .ok f := by decide
  have hschema : ∀ a ∈ f.paths, ∀ urn ∈ a.schema, IsSchema .standard urn := by
    intro a ha urn hurn
    cases List.mem_singleton.mp ha
    cases hurn
    exact .inl (by decide)
  have hboth := parse_bracketed schemasApart_standard hread hschema (by decide)
    (by decide) (by decide)
  have hsegments : readAs .standard f.bracketed = e.segments := by decide
  rw [hsegments] at hboth
  exact ⟨schemasApart_standard, by decide, by decide, hboth⟩

end Expression

end Roster
