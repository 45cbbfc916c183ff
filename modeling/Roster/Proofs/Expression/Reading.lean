import Roster.Proofs.Expression.Whole

/-!
Normalized text that is read back. Where it is not, it is taken for something else: a filter that
is one test of a qualified attribute for that attribute with the test behind it, or a path with
the name behind its extension for another schema.
-/

namespace Roster

namespace Expression

variable {r : Registry} {f : Filter} {urn : String}
variable {ext : Option String} {ps : List (String × Option String)} {name : String}

/-! ### Paths -/

theorem attributePath_path
    (h : IsPath r ext ps) (hfilters : ∀ p ∈ ps, ∀ filter ∈ p.2, Reread filter)
    (hfree : ext ≠ none → ps ≠ [] → ¬IsSchema r (String.ofList (schemaPart (pathText ext ps)))) :
    attributePath r (pathText ext ps) = .ok (pathSegments ext ps) := by
  have hparts : ∀ p ∈ ps, IsPart p := fun p hp => (h.components p hp).isPart
  cases ext with
  | none => exact attributePath_unqualified ps (fun hnil => h.nonempty hnil rfl) hparts hfilters
  | some urn =>
    have hext := h.extension urn rfl
    cases ps with
    | nil => exact attributePath_extension hext
    | cons p ps =>
      have hschema := hfree (by simp) (by simp)
      simp only [IsSchema, not_or, Bool.not_eq_true] at hschema
      exact attributePath_qualified (by simp) hext hparts (segmentsOf_reread hfilters) rfl hschema.1
        hschema.2

/-- A path that a schema takes whole begins with that schema, or is without an extension. -/
theorem attributePath_schema {text : List Char} {segments : List Segment}
    (hurn : beginsWith "urn:".toList text = true) (hwrap : unwrapped? text = none)
    (hschema : IsSchema r (String.ofList (schemaPart text)))
    (h : attributePath r text = .ok segments) {urn : String} (hisUrn : isUrn urn = true)
    (hfirst : segments.head? = some (.name urn)) :
    urn = String.ofList (schemaPart text) := by
  obtain ⟨back, htext, -⟩ := schemaPart_prefix text
  have hfound := schemaOf_whole (r := r) htext
  by_cases hknown : r.isKnownExtension (String.ofList (schemaPart text)) = true
  · rw [if_pos hknown] at hfound
    obtain ⟨ps, rfl, -, -⟩ := attributePath_behind hwrap hurn hfound h
    cases hfirst
    rfl
  · rw [if_neg hknown, if_pos (hschema.resolve_left hknown)] at hfound
    -- a core schema gives no segment, and the names behind it are no URNs
    obtain ⟨ps, rfl, hps, hne⟩ := attributePath_behind hwrap hurn hfound h
    cases ps with
    | nil => exact absurd rfl (hne rfl)
    | cons p ps =>
      have hplain := isSchemaUrn_segment (hps p List.mem_cons_self)
      rw [Option.some.inj hfirst] at hplain
      exact absurd (hplain.symm.trans hisUrn) (by simp)

/-- A path is read back unless a schema reaches into the names behind its extension. -/
theorem parseTrimmed_pathSegments (h : IsPath r ext ps)
    (hfilters : ∀ p ∈ ps, ∀ filter ∈ p.2, Reread filter) :
    parseTrimmed r (pathText ext ps) = .ok (pathSegments ext ps) ↔
      (ext ≠ none → ps ≠ [] → ¬IsSchema r (String.ofList (schemaPart (pathText ext ps)))) := by
  obtain ⟨c, cs, hhead, -⟩ := h.head
  rw [parseTrimmed_path h.solid (by simp [hhead])]
  refine ⟨fun hread hext hne hschema => ?_, attributePath_path h hfilters⟩
  obtain ⟨urn, rfl⟩ := Option.ne_none_iff_exists'.mp hext
  obtain ⟨hbegins, hwrap⟩ := path_begins h
  have hisUrn := (h.extension urn rfl).scheme
  exact schemaPart_ne h hne (attributePath_schema hbegins hwrap hschema hread hisUrn rfl)

/-! ### Paths with a test behind them -/

theorem attached_head {front : List Segment} {text urn : String}
    (h : (attached front text).head? = some (.name urn)) : front.head? = some (.name urn) := by
  have hfirst {segments : List Segment} {s : Segment} (hs : s ≠ .name urn)
      (h : (segments ++ [s]).head? = some (.name urn)) : segments.head? = some (.name urn) := by
    cases segments with
    | nil => exact absurd (Option.some.inj h) hs
    | cons t segments => exact h
  rw [attached] at h
  split at h
  case h_1 owner rest hreverse =>
    split at h
    · exact hfirst (by simp) h
    · have hfront : front = rest.reverse ++ [.name owner] := by
        rw [← front.reverse_reverse, hreverse, List.reverse_cons]
      have hrest := hfirst (by simp) h
      rw [hfront, List.head?_append, hrest]
      rfl
  case h_2 => exact hfirst (by simp) h

/-- So is a path with a test behind it. -/
theorem parseTrimmed_tested (h : IsPath r ext ps) (hlast : ∀ p ∈ ps.getLast?, p.2 ≠ none)
    (hf : f.WellFormed) (hpath : f.testPath? = some (.ofName name))
    (hread : Filter.parse f.toText = .ok f)
    (hfilters : ∀ p ∈ ps, ∀ filter ∈ p.2, Reread filter) :
    parseTrimmed r (joinSegments (pathSegments ext ps ++ [.test f.toText])).toList =
        .ok (pathSegments ext ps ++ [.test f.toText]) ↔
      (ext ≠ none →
        ¬IsSchema r (String.ofList (schemaPart (pathText ext (ps ++ [(name, none)]))))) := by
  have hname : isAttributeName name.toList = true := (Filter.wellFormed_testPath hf hpath).name
  obtain ⟨hpathed, c, more, hc, htext, hjoin⟩ := tested_text h hf hpath
  have hbalanced := balanced_tested h hf
  have hvisible := endsVisible_tested ext ps f
  rw [hjoin] at hbalanced hvisible ⊢
  rw [parseTrimmed_leads hpathed.leads hbalanced hvisible hc]
  by_cases hfree : ext ≠ none →
      ¬IsSchema r (String.ofList (schemaPart (pathText ext (ps ++ [(name, none)]))))
  case pos =>
    have hsegments := attributePath_path hpathed
      (List.forall_mem_append.mpr ⟨hfilters, by simp⟩) fun hext _ => hfree hext
    have hwords : f.toText = name ++ " " ++ String.ofList (c :: more) := by
      simp [← String.toList_inj, htext]
    have hattach := attach?_read (pathSegments ext ps) (isUrn_name hname) (hwords ▸ hread)
    rw [hpath, Option.map_some, attached_selection h.extension hlast] at hattach
    refine iff_of_true ?_ hfree
    rw [pathSegments_snoc] at hsegments
    simp only [attachOr, hsegments, bind, Except.bind, segment, hattach]
  case neg =>
    -- a schema that reaches into the name comes first, so the extension cannot
    refine iff_of_false (fun hattach => hfree fun hext hschema => ?_) hfree
    obtain ⟨urn, rfl⟩ := Option.ne_none_iff_exists'.mp hext
    obtain ⟨segments, hsegments, hattach⟩ := bind_eq_ok.mp hattach
    obtain ⟨hbegins, hwrap⟩ := path_begins hpathed
    have hisUrn := (h.extension urn rfl).scheme
    have hfirst : segments.head? = some (.name urn) := by
      split at hattach
      case h_1 result hresult =>
        obtain ⟨front, last, g, a, rfl, -, -, -, rfl⟩ := attach?_eq_some hresult
        have hhead : (attached front g.toText).head? = some (.name urn) := by
          rw [Except.ok.inj hattach]
          rfl
        rw [List.head?_append, attached_head hhead]
        rfl
      case h_2 =>
        obtain ⟨filter, -, hfilter⟩ := map_eq_ok.mp hattach
        cases hfilter
    exact schemaPart_ne hpathed (by simp)
      (attributePath_schema hbegins hwrap hschema hsegments hisUrn hfirst)

/-! ### Normalized text read back -/

/-- What stands before the first blank, bracket, parenthesis or quote of a text. -/
def leadingWord (text : String) : String :=
  String.ofList (text.toList.takeWhile isLeadChar)

/-- The text of an expression is not taken for another: neither for a path where it is one filter,
nor for one of another schema where it begins with an extension. -/
structure ReadsBack (r : Registry) (e : Expression) : Prop where
  filter : ∀ text f, e.segments = [.test text] → Filter.parse text = .ok f → StaysWhole r f
  schema : ∀ urn next rest, e.segments = .name urn :: next :: rest → isUrn urn = true →
    ¬IsSchema r (leadingWord e.normalized)

theorem leadingWord_append {text : String} {front : List Char} (more : List Char)
    (hfront : Solid front) (hmore : ∀ c ∈ more.head?, isBlank c = true)
    (htext : text.toList = front ++ more) :
    leadingWord text = String.ofList (schemaPart front) := by
  obtain ⟨back, hsplit, hback⟩ := schemaPart_prefix front
  have hlead := solid_schemaPart hfront
  generalize schemaPart front = word at hsplit hlead ⊢
  rw [leadingWord, htext, hsplit, List.append_assoc, takeWhile_append_stop hlead]
  intro c hc
  rw [List.head?_append] at hc
  rcases Option.or_eq_some_iff.mp hc with hbracket | ⟨-, hblank⟩
  · cases hback c hbracket
    rfl
  · simp [isLeadChar, hmore c hblank]

theorem readsBack_iff {tail : List Segment} {schema : String} (h : IsPath r ext ps)
    (htest : ∀ text, pathSegments ext ps ++ tail ≠ [.test text])
    (hword : leadingWord (joinSegments (pathSegments ext ps ++ tail)) = schema) :
    ReadsBack r ⟨pathSegments ext ps ++ tail⟩ ↔
      (ext ≠ none → ps ≠ [] ∨ tail ≠ [] → ¬IsSchema r schema) := by
  constructor
  · intro hreads hext hmore
    obtain ⟨urn, rfl⟩ := Option.ne_none_iff_exists'.mp hext
    obtain ⟨next, rest, hrest⟩ : ∃ next rest, ps.map segment ++ tail = next :: rest := by
      refine List.exists_cons_of_ne_nil fun hnil => ?_
      simp only [List.append_eq_nil_iff, List.map_eq_nil_iff] at hnil
      exact hmore.elim (· hnil.1) (· hnil.2)
    have hsegments : pathSegments (some urn) ps ++ tail = .name urn :: next :: rest := by
      rw [← hrest]
      rfl
    exact hword ▸ hreads.schema urn next rest hsegments (h.extension urn rfl).scheme
  · intro hfree
    refine ⟨fun text f hsegments => absurd hsegments (htest text),
      fun urn next rest hsegments hurn => ?_⟩
    rw [normalized, hword]
    cases ext with
    | none =>
      cases ps with
      | nil => exact absurd rfl (h.nonempty rfl)
      | cons p ps =>
        have hplain := isSchemaUrn_segment (h.components p List.mem_cons_self)
        rw [(List.cons.inj hsegments).1] at hplain
        exact absurd hurn (by simpa [Segment.isSchemaUrn] using hplain)
    | some other =>
      refine hfree (by simp) ?_
      by_contra hnil
      simp only [not_or, not_not] at hnil
      rw [hnil.1, hnil.2] at hsegments
      cases hsegments

theorem parse_trimmed {text : String} {e : Expression} (ht : Trimmed text.toList)
    (hne : text.toList ≠ []) (hlen : utf8Length text.toList ≤ Filter.greatestLength) :
    parse r text = .ok e ↔ parseTrimmed r text.toList = .ok e.segments := by
  have hempty : text.toList.isEmpty = false := List.isEmpty_eq_false_iff.mpr hne
  simp only [parse, ht.trimBlanks, hempty, Bool.false_eq_true, if_false,
    if_neg (Nat.not_lt.mpr hlen), map_eq_ok]
  constructor
  · rintro ⟨segments, hsegments, rfl⟩
    exact hsegments
  · intro hsegments
    exact ⟨e.segments, hsegments, rfl⟩

theorem parse_toText {e : Expression} (hf : f.WellFormed)
    (hlen : utf8Length f.toText.toList ≤ Filter.greatestLength) :
    parse r f.toText = .ok e ↔ parseTrimmed r f.toText.toList = .ok e.segments := by
  obtain ⟨c, hc, -⟩ := Filter.head?_toText hf
  have hne : f.toText.toList ≠ [] := by
    intro hnil
    simp [hnil] at hc
  exact parse_trimmed (Filter.trimmed_toText hf) hne hlen

theorem parse_normalized_filter (hf : Legible f)
    (hlen : utf8Length f.toText.toList ≤ Filter.greatestLength) :
    parse r f.toText = .ok ⟨[.test f.toText]⟩ ↔ ReadsBack r ⟨[.test f.toText]⟩ := by
  have hread := hf.parse_toText hlen
  have hstays : ReadsBack r ⟨[.test f.toText]⟩ ↔ StaysWhole r f := by
    constructor
    · intro h
      exact h.filter f.toText f rfl hread
    · intro h
      refine ⟨fun text g hsegments hg => ?_, fun urn next rest hsegments => by cases hsegments⟩
      cases hsegments
      cases hread.symm.trans hg
      exact h
  rw [hstays, ← parseTrimmed_filter hf hlen]
  exact parse_toText hf.wellFormed hlen

theorem parse_normalized_path (h : IsPath r ext ps)
    (hlen : utf8Length (joinSegments (pathSegments ext ps)).toList ≤ Filter.greatestLength)
    (hfilters : ∀ s ∈ pathSegments ext ps, ∀ filter ∈ s.filter?, Reread filter) :
    parse r (joinSegments (pathSegments ext ps)) = .ok ⟨pathSegments ext ps⟩ ↔
      ReadsBack r ⟨pathSegments ext ps⟩ := by
  have hjoin := joinSegments_path h
  obtain ⟨c, cs, hhead, -⟩ := h.head
  have hcomponents : ∀ p ∈ ps, ∀ filter ∈ p.2, Reread filter := fun p hp filter hf =>
    hfilters _ (mem_pathSegments hp) filter ((filter?_segment p).symm ▸ hf)
  have hword : leadingWord (joinSegments (pathSegments ext ps ++ [])) =
      String.ofList (schemaPart (pathText ext ps)) := by
    refine leadingWord_append [] h.solid (by simp) ?_
    rw [List.append_nil, List.append_nil, hjoin]
  have htest (text : String) : pathSegments ext ps ++ [] ≠ [.test text] := by
    rw [List.append_nil]
    exact test_ne_pathSegments ext ps text
  have hreads := readsBack_iff h htest hword
  rw [List.append_nil] at hreads
  rw [hreads, parse_trimmed (hjoin ▸ h.solid.trimmed) (by simp [hjoin, hhead]) hlen, hjoin,
    parseTrimmed_pathSegments h hcomponents]
  simp

theorem parse_toText_test (hf : f.WellFormed) (hpath : f.testPath? = some (.ofName name))
    (hnot : sameName name "not" = false)
    (hlen : utf8Length f.toText.toList ≤ Filter.greatestLength) :
    Filter.parse f.toText = .ok f := by
  have hflat : f.depth = 0 ∧ f.paths = [.ofName name] := by
    cases f <;> cases hpath <;> exact ⟨rfl, rfl⟩
  refine hf.parse_toText hlen (by simp [hflat.1]) fun a ha => ?_
  rw [hflat.2] at ha
  cases List.mem_singleton.mp ha
  exact isNot_of_name hnot

theorem parse_normalized_tested (h : IsPath r ext ps) (hlast : ∀ p ∈ ps.getLast?, p.2 ≠ none)
    (hf : f.WellFormed) (hpath : f.testPath? = some (.ofName name))
    (hnot : sameName name "not" = false)
    (hlen : utf8Length (joinSegments (pathSegments ext ps ++ [.test f.toText])).toList ≤
      Filter.greatestLength)
    (hfilters : ∀ s ∈ pathSegments ext ps ++ [.test f.toText], ∀ filter ∈ s.filter?,
      Reread filter) :
    parse r (joinSegments (pathSegments ext ps ++ [.test f.toText])) =
        .ok ⟨pathSegments ext ps ++ [.test f.toText]⟩ ↔
      ReadsBack r ⟨pathSegments ext ps ++ [.test f.toText]⟩ := by
  have hself : Segment.test f.toText ∈ pathSegments ext ps ++ [.test f.toText] := by simp
  have hread := parse_toText_test hf hpath hnot ((filter_length_le hself rfl).trans hlen)
  have hcomponents : ∀ p ∈ ps, ∀ filter ∈ p.2, Reread filter := fun p hp filter hf =>
    hfilters _ (List.mem_append_left _ (mem_pathSegments hp)) filter
      ((filter?_segment p).symm ▸ hf)
  obtain ⟨hpathed, c, more, -, -, hjoin⟩ := tested_text h hf hpath
  obtain ⟨d, ds, hhead, -⟩ := hpathed.head
  have htrimmed : Trimmed (joinSegments (pathSegments ext ps ++ [.test f.toText])).toList := by
    refine (endsVisible_tested ext ps f).trimmed fun e he => ?_
    rw [hjoin, hhead] at he
    exact hpathed.solid.trimmed.first e (hhead ▸ he)
  have hword : leadingWord (joinSegments (pathSegments ext ps ++ [.test f.toText])) =
      String.ofList (schemaPart (pathText ext (ps ++ [(name, none)]))) :=
    leadingWord_append _ hpathed.solid (by rintro e ⟨⟩; rfl) hjoin
  have htest (text : String) : pathSegments ext ps ++ [.test f.toText] ≠ [.test text] := by
    intro hsegments
    exact h.segments_ne_nil (by simpa using congrArg List.dropLast hsegments)
  rw [readsBack_iff h htest hword, parse_trimmed htrimmed (by simp [hjoin, hhead]) hlen,
    parseTrimmed_tested h hlast hf hpath hread hcomponents]
  simp

/-- The normalized text of what was read is read as the same expression exactly when it is not taken
for another. -/
theorem parse_normalized_iff {text : String} {e : Expression} (hread : parse r text = .ok e)
    (hlen : utf8Length e.normalized.toList ≤ Filter.greatestLength)
    (hlegible : ∀ s ∈ e.segments, ∀ filter ∈ s.filter?, ∃ f, Legible f ∧ f.toText = filter) :
    parse r e.normalized = .ok e ↔ ReadsBack r e := by
  have hreread : ∀ s ∈ e.segments, ∀ filter ∈ s.filter?, Reread filter := by
    intro s hs filter hf
    obtain ⟨f, hlegible, rfl⟩ := hlegible s hs filter hf
    exact hlegible.reread ((filter_length_le hs hf).trans hlen)
  have hshape := parse_shape hread
  obtain ⟨segments⟩ := e
  cases hshape with
  | filter =>
    obtain ⟨f, hf, rfl⟩ := hlegible _ (List.mem_singleton_self _) _ rfl
    exact parse_normalized_filter hf hlen
  | path h => exact parse_normalized_path h hlen hreread
  | tested h hlast hf hpath hnot =>
    exact parse_normalized_tested h hlast hf hpath hnot hlen hreread

/-- A comparison behind an attribute of an extension is read back as a selection in it. -/
theorem parse_normalized_manager :
    let e : Expression :=
      ⟨[.name Urn.enterpriseUser, .selection "manager" "displayName eq \"Jo\""]⟩
    parse .standard e.normalized = .ok e := by
  intro e
  have hread : parse .standard (Urn.enterpriseUser ++ ":manager.displayName EQ \"Jo\"") =
      .ok e := by decide +kernel
  have hlegible : Legible (.compare (.ofName "displayName") .eq (.text "Jo")) :=
    ⟨⟨.ofName (by decide), trivial⟩, rfl, by decide, by decide⟩
  have hfilters : ∀ s ∈ e.segments, ∀ filter ∈ s.filter?, ∃ f, Legible f ∧ f.toText = filter := by
    intro s hs filter hf
    rcases List.mem_cons.mp hs with rfl | hs
    · cases hf
    · cases List.mem_singleton.mp hs
      cases hf
      exact ⟨_, hlegible, by decide⟩
  have hreads : ReadsBack .standard e := by
    refine ⟨fun text f hsegments => ?_, fun urn next rest hsegments _ => ?_⟩
    · cases hsegments
    · rw [IsSchema, not_or]
      decide +kernel
  exact (parse_normalized_iff hread (by decide +kernel) hfilters).mpr hreads

/-- A selection with `pr` behind it is one filter; its text is read as a path. -/
theorem parse_selection_present :
    let e : Expression := ⟨[.test "emails[type eq \"work\"]"]⟩
    parse .standard "emails[type eq \"work\"] pr" = .ok e ∧
      utf8Length e.normalized.toList ≤ Filter.greatestLength ∧
      Legible (.select (.ofName "emails") (.compare (.ofName "type") .eq (.text "work"))) ∧
      e.normalized = "emails[type eq \"work\"]" ∧
      parse .standard e.normalized = .ok ⟨[.selection "emails" "type eq \"work\""]⟩ ∧
      parse .standard e.normalized ≠ .ok e := by
  have hwell : (Filter.select (.ofName "emails")
      (.compare (.ofName "type") .eq (.text "work"))).WellFormed :=
    ⟨.ofName (by decide), rfl, .ofName (by decide), trivial⟩
  exact ⟨by decide +kernel, by decide +kernel, ⟨hwell, rfl, by decide, by decide⟩,
    by decide +kernel, by decide +kernel, by decide +kernel⟩

end Expression

end Roster
