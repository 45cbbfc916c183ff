import Roster.Proofs.Expression.Shape

/-!
The normalized text of segments: where a path in it begins and ends, and that what stands in
brackets and quotes is closed.
-/

namespace Roster

namespace Expression

variable {r : Registry} {f : Filter} {urn : String}
variable {ext : Option String} {ps : List (String × Option String)} {name : String}

/-! ### Joined segments -/

theorem joinSegments_snoc {s t : Segment} {more : String} (h : t.toText = s.toText ++ more)
    (front : List Segment) :
    joinSegments (front ++ [t]) = joinSegments (front ++ [s]) ++ more := by
  induction front with
  | nil => exact h
  | cons first front ih =>
    cases front with
    | nil => simp [joinSegments, h, String.append_assoc]
    | cons second front =>
      simp only [List.cons_append, joinSegments] at ih ⊢
      simp only [ih, String.append_assoc]

theorem joinSegments_last (front : List Segment) (s : Segment) :
    ∃ before, (joinSegments (front ++ [s])).toList = before ++ s.toText.toList := by
  induction front with
  | nil => exact ⟨[], rfl⟩
  | cons first front ih =>
    obtain ⟨before, hjoin⟩ := ih
    cases front with
    | nil => exact ⟨_, String.toList_append⟩
    | cons second front =>
      simp only [List.cons_append] at hjoin ⊢
      simp only [joinSegments, String.toList_append, hjoin]
      exact ⟨_, (List.append_assoc ..).symm⟩

theorem filter_length_le {segments : List Segment} {s : Segment} {text : String}
    (hs : s ∈ segments) (ht : text ∈ s.filter?) :
    utf8Length text.toList ≤ utf8Length (joinSegments segments).toList := by
  have hself : utf8Length text.toList ≤ utf8Length s.toText.toList := by
    cases s with
    | name n => cases ht
    | selection n f =>
      cases ht
      simp only [Segment.toText, String.toList_append, utf8Length_append]
      omega
    | test f =>
      cases ht
      exact Nat.le_refl _
  induction segments with
  | nil => cases hs
  | cons first rest ih =>
    cases rest with
    | nil =>
      cases List.mem_singleton.mp hs
      exact hself
    | cons second rest =>
      simp only [joinSegments, String.toList_append, utf8Length_append]
      rcases List.mem_cons.mp hs with rfl | hs
      · omega
      · have hrest := ih hs
        omega

theorem filter?_segment (p : String × Option String) : (segment p).filter? = p.2 := by
  obtain ⟨name, filter⟩ := p
  cases filter <;> rfl

theorem mem_pathSegments {p : String × Option String} (hp : p ∈ ps) :
    segment p ∈ pathSegments ext ps :=
  List.mem_append_right _ (List.mem_map_of_mem hp)

theorem IsPath.normal (h : IsPath r ext ps) {s : Segment} (hs : s ∈ pathSegments ext ps)
    {filter : String} (hf : filter ∈ s.filter?) : Normal filter := by
  rcases List.mem_append.mp hs with hs | hs
  · obtain ⟨urn, -, rfl⟩ := Option.map_eq_some_iff.mp (Option.mem_toList.mp hs)
    cases hf
  · obtain ⟨p, hp, rfl⟩ := List.mem_map.mp hs
    rw [filter?_segment] at hf
    exact (h.components p hp).filter filter hf

/-- Every filter of an expression that was read is in bracket form. -/
theorem parse_normal {text : String} {e : Expression} (h : parse r text = .ok e) :
    ∀ s ∈ e.segments, ∀ filter ∈ s.filter?, Normal filter := by
  intro s hs filter hf
  have hshape := parse_shape h
  obtain ⟨segments⟩ := e
  cases hshape with
  | filter hnormal =>
    cases List.mem_singleton.mp hs
    cases hf
    exact hnormal
  | path hpathed => exact hpathed.normal hs hf
  | tested hpathed _ hwell hpath _ =>
    rcases List.mem_append.mp hs with hs | hs
    · exact hpathed.normal hs hf
    · cases List.mem_singleton.mp hs
      cases hf
      exact normal_test hwell hpath

theorem IsPath.segments_ne_nil
    (h : IsPath r ext ps) : pathSegments ext ps ≠ [] := by
  intro hnil
  obtain ⟨hext, hps⟩ := List.append_eq_nil_iff.mp hnil
  refine h.nonempty (List.map_eq_nil_iff.mp hps) ?_
  cases ext with
  | none => rfl
  | some urn => cases hext

theorem test_ne_pathSegments (ext : Option String) (ps : List (String × Option String))
    (text : String) : pathSegments ext ps ≠ [.test text] := by
  intro h
  have hmem : Segment.test text ∈ pathSegments ext ps := h ▸ List.mem_singleton_self _
  rcases List.mem_append.mp hmem with hext | hps
  · cases ext with
    | none => cases hext
    | some urn => cases List.mem_singleton.mp hext
  · obtain ⟨⟨name, filter⟩, -, hsegment⟩ := List.mem_map.mp hps
    cases filter <;> cases hsegment

/-- The characters of a path. -/
def pathText : Option String → List (String × Option String) → List Char
  | none, ps => joinParts ps
  | some urn, [] => urn.toList
  | some urn, p :: ps => urn.toList ++ ':' :: joinParts (p :: ps)

theorem toText_segment (p : String × Option String) : (segment p).toText.toList = partText p := by
  obtain ⟨name, filter⟩ := p
  cases filter <;> simp [segment, Segment.toText, partText]

theorem isSchemaUrn_segment {p : String × Option String} (h : IsComponent p) :
    (segment p).isSchemaUrn = false := by
  obtain ⟨name, filter⟩ := p
  cases filter with
  | none => exact isUrn_name h.name
  | some text => rfl

theorem joinSegments_parts (hps : ∀ p ∈ ps, IsComponent p) :
    (joinSegments (ps.map segment)).toList = joinParts ps := by
  induction ps with
  | nil => rfl
  | cons p ps ih =>
    have hp := isSchemaUrn_segment (hps p List.mem_cons_self)
    have hrest := ih fun q hq => hps q (List.mem_cons_of_mem p hq)
    cases ps with
    | nil => exact toText_segment p
    | cons q ps =>
      simp only [List.map_cons] at hrest
      simp [joinSegments, joinParts, hp, toText_segment, hrest]

theorem joinSegments_path
    (h : IsPath r ext ps) : (joinSegments (pathSegments ext ps)).toList = pathText ext ps := by
  have hjoin := joinSegments_parts h.components
  cases ext with
  | none => exact hjoin
  | some urn =>
    have hurn := (h.extension urn rfl).scheme
    cases ps with
    | nil => rfl
    | cons p ps =>
      simp only [List.map_cons] at hjoin
      simp [pathSegments, joinSegments, pathText, Segment.isSchemaUrn, hurn, hjoin,
        show (Segment.name urn).toText = urn from rfl]

/-! ### Leading paths -/

theorem solid_part {p : String × Option String} (h : IsPart p) : Solid (partText p) := by
  have hname := Solid.ofQualified (Filter.isAttributeName_qualified h.name)
  obtain ⟨name, filter⟩ := p
  cases filter with
  | none => exact hname
  | some text => exact hname.append (.brackets (h.filter text rfl))

theorem Solid.cons {c : Char} {cs : List Char} (hc : isMark c = false) (hb : isBlank c = false)
    (h : Solid cs) : Solid (c :: cs) :=
  .append (.plain hc hb) h

theorem solid_joinParts (hps : ∀ p ∈ ps, IsPart p) :
    Solid (joinParts ps) := by
  induction ps with
  | nil => exact .nil
  | cons p ps ih =>
    have hp := solid_part (hps p List.mem_cons_self)
    cases ps with
    | nil => exact hp
    | cons q ps =>
      have hrest := ih fun s hs => hps s (List.mem_cons_of_mem p hs)
      exact hp.append (hrest.cons (by decide) (by decide))

theorem solid_extension (h : IsExtension r urn) : Solid urn.toList :=
  .ofLead h.lead

theorem IsPath.solid
    (h : IsPath r ext ps) : Solid (pathText ext ps) := by
  have hparts := solid_joinParts fun p hp => (h.components p hp).isPart
  cases ext with
  | none => exact hparts
  | some urn =>
    have hurn := solid_extension (h.extension urn rfl)
    cases ps with
    | nil => exact hurn
    | cons p ps => exact hurn.append (hparts.cons (by decide) (by decide))

/-- The whole of a solid text is its leading path. -/
theorem leadEnd_solid {text : List Char} (h : Solid text) :
    leadEnd text = .ok (utf8Length text) ∧ cut text 0 (utf8Length text) = .ok text := by
  have hend : leadEnd (text ++ []) = .ok (utf8Length text) :=
    leadEnd_append h (by simpa using h.balanced) (by simp)
  have hcut := cut_front text []
  rw [List.append_nil] at hend hcut
  exact ⟨hend, hcut⟩

theorem solid_schemaPart {text : List Char} (h : Solid text) :
    (schemaPart text).all isLeadChar = true :=
  leadEnd_lead (leadEnd_solid h).1 (leadEnd_solid h).2

/-- A path begins with a letter of a name or a URN. -/
theorem IsPath.head
    (h : IsPath r ext ps) : ∃ c cs, pathText ext ps = c :: cs ∧ c ≠ '[' := by
  have hfirst {cs : List Char} (hne : cs ≠ []) (hbracket : '[' ∉ cs) (rest : List Char) :
      ∃ d ds, cs ++ rest = d :: ds ∧ d ≠ '[' := by
    cases cs with
    | nil => exact absurd rfl hne
    | cons d ds =>
      exact ⟨d, ds ++ rest, rfl, fun heq => hbracket (heq ▸ List.mem_cons_self)⟩
  cases ext with
  | none =>
    cases ps with
    | nil => exact absurd rfl (h.nonempty rfl)
    | cons p ps =>
      have hname := (h.components p List.mem_cons_self).name
      obtain ⟨rest, hjoin, -⟩ := joinParts_name p ps
      rw [pathText, hjoin]
      exact hfirst (Filter.ne_nil_of_isAttributeName hname)
        (Filter.not_mem_of_isAttributeName hname rfl) rest
  | some urn =>
    have hext := h.extension urn rfl
    have hne : urn.toList ≠ [] := by
      obtain ⟨scheme, rest, hurn, -, -⟩ := Filter.urn_front hext.scheme
      simp [hurn]
    have hbracket : '[' ∉ urn.toList := fun hmem => hext.not_bracket '[' hmem rfl
    cases ps with
    | nil => simpa [pathText] using hfirst hne hbracket []
    | cons p ps => exact hfirst hne hbracket _

/-- A leading path that a test can stand behind. -/
structure Leads (front : List Char) : Prop where
  solid : Solid front
  nonempty : front ≠ []
  first : front.head? ≠ some '['
  last : front.getLast? ≠ some ']'

theorem Leads.ofQualified {front : List Char} (hne : front ≠ [])
    (h : front.all Filter.isQualifiedChar = true) : Leads front := by
  have hmark {c : Char} (hc : c ∈ front) : isMark c = false :=
    isMark_of_isQualifiedChar (List.all_eq_true.mp h c hc)
  refine ⟨.ofQualified h, hne, fun hfirst => ?_, fun hlast => ?_⟩
  · exact absurd (hmark (List.mem_of_head? hfirst)) (by decide)
  · exact absurd (hmark (List.mem_of_getLast? hlast)) (by decide)

theorem IsPath.leads (h : IsPath r ext (ps ++ [(name, none)])) :
    Leads (pathText ext (ps ++ [(name, none)])) := by
  obtain ⟨c, cs, hhead, hc⟩ := h.head
  have hname := (h.components (name, none) (by simp)).name
  obtain ⟨before, hlast⟩ := joinSegments_last (pathSegments ext ps) (.name name)
  have htext : pathText ext (ps ++ [(name, none)]) = before ++ name.toList := by
    rw [← joinSegments_path h, pathSegments_snoc]
    exact hlast
  refine ⟨h.solid, by simp [hhead], by simpa [hhead] using hc, fun hbracket => ?_⟩
  rw [htext, List.getLast?_append_of_ne_nil _ (Filter.ne_nil_of_isAttributeName hname)] at hbracket
  exact Filter.not_mem_of_isAttributeName hname rfl (List.mem_of_getLast? hbracket)

theorem path_begins (h : IsPath r (some urn) ps) :
    beginsWith "urn:".toList (pathText (some urn) ps) = true ∧
      unwrapped? (pathText (some urn) ps) = none := by
  have hext := h.extension urn rfl
  cases ps with
  | nil => simpa [pathText] using hext.begins []
  | cons p ps => exact hext.begins _

/-- The URN that a path begins with is not all that a schema is looked for in. -/
theorem schemaPart_ne (h : IsPath r (some urn) ps) (hne : ps ≠ []) :
    urn ≠ String.ofList (schemaPart (pathText (some urn) ps)) := by
  cases ps with
  | nil => exact absurd rfl hne
  | cons p ps =>
    have hpart : schemaPart (pathText (some urn) (p :: ps)) =
        urn.toList ++ schemaPart (':' :: joinParts (p :: ps)) :=
      schemaPart_extension (h.extension urn rfl) _
    intro hsame
    rw [hpart, ← String.toList_inj, String.toList_ofList] at hsame
    have hcolon : schemaPart (':' :: joinParts (p :: ps)) = [] := by simpa using hsame
    cases hcolon

/-! ### A test behind a path -/

theorem balanced_joinSegments {segments : List Segment}
    (h : ∀ s ∈ segments, Balanced s.toText.toList) : Balanced (joinSegments segments).toList := by
  induction segments with
  | nil => exact .nil
  | cons s rest ih =>
    have hs := h s List.mem_cons_self
    have hrest := ih fun t ht => h t (List.mem_cons_of_mem s ht)
    cases rest with
    | nil => exact hs
    | cons t rest =>
      have hseparator : Balanced (if s.isSchemaUrn then ":" else ".").toList := by
        split <;> exact .ofPlain (by decide)
      simpa [joinSegments] using hs.append (hseparator.append hrest)

theorem balanced_tested (h : IsPath r ext ps) (hf : f.WellFormed) :
    Balanced (joinSegments (pathSegments ext ps ++ [.test f.toText])).toList := by
  refine balanced_joinSegments fun s hs => ?_
  rcases List.mem_append.mp hs with hs | hs
  · rcases List.mem_append.mp hs with hs | hs
    · obtain ⟨urn, hurn, rfl⟩ := Option.map_eq_some_iff.mp (Option.mem_toList.mp hs)
      exact (solid_extension (h.extension urn hurn)).balanced
    · obtain ⟨p, hp, rfl⟩ := List.mem_map.mp hs
      rw [toText_segment]
      exact (solid_part (h.components p hp).isPart).balanced
  · cases List.mem_singleton.mp hs
    exact balanced_filter hf

theorem joinSegments_tested (h : IsPath r ext (ps ++ [(name, none)])) {more : List Char}
    (htext : f.toText.toList = name.toList ++ more) :
    (joinSegments (pathSegments ext ps ++ [.test f.toText])).toList =
      pathText ext (ps ++ [(name, none)]) ++ more := by
  have hsegment : (Segment.test f.toText).toText =
      (Segment.name name).toText ++ String.ofList more := by
    simp [← String.toList_inj, Segment.toText, htext]
  rw [joinSegments_snoc hsegment, ← segment, ← pathSegments_snoc, String.toList_append,
    joinSegments_path h, String.toList_ofList]

theorem toText_ofName (name : String) : (AttributePath.ofName name).toText = name := by
  simp [AttributePath.toText, AttributePath.ofName]

/-- The text of a test behind a path: the name of the test ends the leading path. -/
theorem tested_text (h : IsPath r ext ps) (hf : f.WellFormed)
    (hpath : f.testPath? = some (.ofName name)) :
    IsPath r ext (ps ++ [(name, none)]) ∧ ∃ c more, isBlank c = false ∧
      f.toText.toList = name.toList ++ ' ' :: c :: more ∧
      (joinSegments (pathSegments ext ps ++ [.test f.toText])).toList =
        pathText ext (ps ++ [(name, none)]) ++ ' ' :: c :: more := by
  have hname : isAttributeName name.toList = true := (Filter.wellFormed_testPath hf hpath).name
  have hlast : IsComponent (name, none) := ⟨hname, by simp⟩
  have hpathed : IsPath r ext (ps ++ [(name, none)]) :=
    ⟨h.extension, List.forall_mem_append.mpr ⟨h.components, by simpa using hlast⟩, by simp⟩
  have hlead := Filter.leftmost_of_testPath? hpath
  obtain ⟨c, more, htext, hc⟩ := Filter.toText_test (hlead ▸ hpath)
  rw [toText_ofName] at htext
  exact ⟨hpathed, c, more, hc, htext, joinSegments_tested hpathed htext⟩

theorem endsVisible_tested (ext : Option String) (ps : List (String × Option String))
    (f : Filter) : EndsVisible (joinSegments (pathSegments ext ps ++ [.test f.toText])).toList := by
  obtain ⟨before, hjoin⟩ := joinSegments_last (pathSegments ext ps) (.test f.toText)
  rw [hjoin]
  exact (Filter.endsVisible_toText f).append before

end Expression

end Roster
