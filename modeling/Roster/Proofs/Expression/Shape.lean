import Roster.Proofs.Expression.Paths
import Roster.Proofs.Filter.Leading

/-!
What reading gives: one filter in bracket form, a path, or a path and the test that stands behind
its last name.
-/

namespace Roster

namespace Expression

/-! ### The leading path of a text -/

theorem takeBytes?_eq_some {cs xs : List Char} {n : Nat} (h : takeBytes? cs n = some xs) :
    ∃ ys, cs = xs ++ ys := by
  induction cs generalizing n xs with
  | nil =>
    cases n with
    | zero =>
      cases h
      exact ⟨[], rfl⟩
    | succ n => cases h
  | cons c cs ih =>
    cases n with
    | zero =>
      cases h
      exact ⟨_, rfl⟩
    | succ n =>
      rw [takeBytes?] at h
      split at h
      · obtain ⟨ys, hys, rfl⟩ := Option.map_eq_some_iff.mp h
        obtain ⟨zs, rfl⟩ := ih hys
        exact ⟨zs, rfl⟩
      · cases h

theorem cut_prefix {text lead : List Char} {stop : Nat} (h : cut text 0 stop = .ok lead) :
    ∃ back, text = lead ++ back := by
  simp only [cut, slice?] at h
  split at h
  case h_1 part hpart =>
    cases h
    simp only [Nat.zero_le, if_true, dropBytes?, Option.bind_some] at hpart
    exact takeBytes?_eq_some hpart
  case h_2 => cases h

theorem Boundary.plain_lead {b t : Boundary} {c : Char} (h : b.plain c = .ok t) :
    t.lead = if b.lead.isNone && b.opened.isEmpty && (isBlank c || c == '(' || c == '"') then
      some b.position else b.lead := by
  simp only [Boundary.plain] at h
  repeat' split at h
  all_goals
    cases h
    try simp_all

theorem Boundary.quoted_lead (b : Boundary) (c : Char) : (b.quoted c).lead = b.lead := by
  simp only [Boundary.quoted]
  repeat' split
  all_goals rfl

/-- Once found, the end of the leading path stays. -/
theorem Boundary.step_lead {b t : Boundary} {c : Char} {n : Nat} (hb : b.lead = some n)
    (h : b.step c = .ok t) : t.lead = some n := by
  simp only [Boundary.step] at h
  split at h
  · cases h
    rw [← hb, ← b.quoted_lead c]
  · obtain ⟨next, hnext, h⟩ := bind_eq_ok.mp h
    cases h
    simpa [hb] using Boundary.plain_lead hnext

/-- A blank or a mark other than a bracket ends the leading path. -/
theorem Boundary.step_ends {b t : Boundary} {c : Char} (hq : b.quote = none)
    (ho : b.opened = []) (hl : b.lead = none) (hc : isLeadChar c = false) (hb : c ≠ '[')
    (h : b.step c = .ok t) : t.lead = some b.position := by
  simp only [Boundary.step, hq] at h
  obtain ⟨next, hnext, h⟩ := bind_eq_ok.mp h
  cases h
  have hlead := Boundary.plain_lead hnext
  have hclosing : c ≠ ']' ∧ c ≠ ')' := by
    have hblank : isBlank ']' = false ∧ isBlank ')' = false := by decide
    constructor <;>
    · rintro rfl
      simp [Boundary.plain, ho, hblank] at hnext
  have hends : (isBlank c || c == '(' || c == '"') = true := by
    simp only [isLeadChar, isMark, Bool.and_eq_false_iff, Bool.not_eq_false', Bool.or_eq_true,
      beq_iff_eq, hb, hclosing, or_false] at hc
    simpa [or_comm, or_left_comm, or_assoc] using hc
  simpa [hl, ho, hends] using hlead

theorem schemaPart_append (xs ys : List Char) : schemaPart xs ⊆ schemaPart (xs ++ ys) := by
  rw [schemaPart, schemaPart, List.takeWhile_append]
  split
  case isTrue =>
    exact List.Subset.trans (List.takeWhile_sublist _).subset (List.subset_append_left ..)
  case isFalse => exact List.Subset.refl _

/-- A blank or a mark other than a bracket behind text of the leading path ends that path. -/
theorem leadEnd_ends {front more : List Char} {c : Char} {stop : Nat} (hf : Solid front)
    (hlead : isLeadChar c = false) (hc : c ≠ '[') (h : leadEnd (front ++ c :: more) = .ok stop) :
    stop = utf8Length front := by
  have hscan := hf.scan_boundary (b := ⟨0, none, false, [], none⟩) rfl rfl
  obtain ⟨b, hb, hstop⟩ := bind_eq_ok.mp h
  rw [scan_append hscan, List.foldlM_cons] at hb
  obtain ⟨next, hnext, hb⟩ := bind_eq_ok.mp hb
  have hfound := Boundary.step_ends rfl rfl rfl hlead hc hnext
  have hend := scan_keeps (fun _ _ _ => Boundary.step_lead) hfound hb
  split at hstop
  · cases hstop
  · split at hstop
    · cases hstop
    · cases hstop
      simp [hend, Boundary.shifted]

/-- A leading path has no blank and no mark before its first bracket. -/
theorem leadEnd_lead {text lead : List Char} {stop : Nat} (hstop : leadEnd text = .ok stop)
    (hlead : cut text 0 stop = .ok lead) : (schemaPart lead).all isLeadChar = true := by
  obtain ⟨back, htext⟩ := cut_prefix hlead
  have hpart : schemaPart lead ⊆ schemaPart text := htext ▸ schemaPart_append lead back
  have hfront : (text.takeWhile isLeadChar).all isLeadChar = true := List.all_takeWhile
  have hsplit : text = text.takeWhile isLeadChar ++ text.dropWhile isLeadChar :=
    List.takeWhile_append_dropWhile.symm
  have hrest := List.head?_dropWhile_not isLeadChar text
  generalize text.takeWhile isLeadChar = front at hfront hsplit
  generalize text.dropWhile isLeadChar = rest at hsplit hrest
  have hbracket : ∀ c ∈ front, (c != '[') = true := by
    intro c hc
    rw [bne_iff_ne]
    rintro rfl
    exact absurd (List.all_eq_true.mp hfront '[' hc) (by decide)
  by_cases hstays : ∀ c ∈ rest.head?, c = '['
  case pos =>
    have hwhole : schemaPart text = front := by
      rw [hsplit]
      exact takeWhile_append_stop (List.all_eq_true.mpr hbracket) fun c hc => by
        cases hstays c hc
        rfl
    rw [List.all_eq_true] at hfront ⊢
    exact fun c hc => hfront c (hwhole ▸ hpart hc)
  case neg =>
    -- the path ends with the first character that is not one of it
    obtain ⟨c, more, rfl, hc⟩ : ∃ c more, rest = c :: more ∧ c ≠ '[' := by
      cases rest with
      | nil => simp at hstays
      | cons c more => exact ⟨c, more, rfl, by simpa using hstays⟩
    have hposition : stop = utf8Length front := by
      rw [hsplit] at hstop
      exact leadEnd_ends (.ofLead hfront) (by simpa using hrest) hc hstop
    rw [hposition, hsplit, cut_front] at hlead
    cases hlead
    rw [List.all_eq_true] at hfront ⊢
    exact fun d hd => hfront d ((List.takeWhile_sublist _).subset hd)

/-! ### Paths -/

variable {r : Registry}

/-- What a path is made of: the URN of an extension or none, and components. -/
structure IsPath (r : Registry) (ext : Option String) (ps : List (String × Option String)) :
    Prop where
  extension : ∀ urn ∈ ext, IsExtension r urn
  components : ∀ p ∈ ps, IsComponent p
  nonempty : ps = [] → ext ≠ none

def pathSegments (ext : Option String) (ps : List (String × Option String)) : List Segment :=
  (ext.map Segment.name).toList ++ ps.map segment

/-- The schema of a path is a URN, or the name `urn`. -/
theorem IsCandidate.scheme {text front back : List Char} (h : IsCandidate text front back)
    (hurn : beginsWith "urn:".toList text = true) :
    isUrn (String.ofList front) = true ∨ isAttributeName front = true := by
  obtain ⟨scheme, rest, rfl, hletters, hscheme⟩ := Filter.urn_front hurn
  have hne : scheme ≠ [] := by
    rintro rfl
    cases hscheme
  have hbegins (more : List Char) : isUrn (String.ofList (scheme ++ ':' :: more)) = true := by
    rw [isUrn, String.toList_ofList]
    exact beginsWith_iff.mpr ⟨scheme ++ [':'], more, by simp, by simp [hscheme]⟩
  have hletter {c : Char} (hc : c ∈ scheme) : isLetter c = true :=
    List.all_eq_true.mp hletters c hc
  have hpart : schemaPart (scheme ++ ':' :: rest) = scheme ++ ':' :: schemaPart rest :=
    List.takeWhile_append_of_pos fun c hc => bne_iff_ne.mpr <| by
      rintro rfl
      exact absurd (hletter hc) (by decide)
  rcases h with ⟨rfl, -⟩ | ⟨more, hfront, -⟩
  · rw [hpart]
    exact .inl (hbegins _)
  · rw [hpart] at hfront
    -- the colon behind a candidate is the first one of the path, or a later one
    rcases List.append_eq_append_iff.mp hfront with ⟨middle, rfl, hmiddle⟩ | ⟨middle, rfl, hmiddle⟩
    · cases middle with
      | nil =>
        rw [List.append_nil]
        exact .inr (Filter.isAttributeName_of_letters hne hletters)
      | cons c middle =>
        obtain ⟨rfl, -⟩ := List.cons.inj hmiddle
        exact .inl (hbegins middle)
    · cases middle with
      | nil =>
        rw [List.append_nil] at hletters hne
        exact .inr (Filter.isAttributeName_of_letters hne hletters)
      | cons c middle =>
        obtain ⟨rfl, -⟩ := List.cons.inj hmiddle
        exact absurd (hletter (c := ':') (by simp)) (by decide)

theorem IsCandidate.subset {text front back : List Char} (h : IsCandidate text front back) :
    front ⊆ schemaPart text := by
  rcases h with ⟨rfl, -⟩ | ⟨more, hfront, -⟩
  · exact List.Subset.refl _
  · rw [hfront]
    exact List.subset_append_left ..

/-- Components that split a text become one segment each. -/
theorem segmentsOf_components {text : List Char} {offset : Nat}
    {parts : List (String × Option String)} {segments : List Segment}
    (hparts : components text offset = .ok parts) (h : segmentsOf parts = .ok segments) :
    ∃ ps : List (String × Option String),
      segments = ps.map segment ∧ ps ≠ [] ∧ ∀ p ∈ ps, IsComponent p := by
  obtain ⟨hne, hnames⟩ := components_names hparts
  obtain ⟨ps, rfl, hlength, hps⟩ := segmentsOf_eq_ok hnames h
  refine ⟨ps, rfl, ?_, hps⟩
  rintro rfl
  exact hne (List.eq_nil_of_length_eq_zero hlength.symm)

theorem schemaOf_extension {text rest : List Char} {urn : String}
    (hlead : (schemaPart text).all isLeadChar = true)
    (hurn : beginsWith "urn:".toList text = true) (h : schemaOf r text = .ok (some urn, rest)) :
    IsExtension r urn ∨ isAttributeName urn.toList = true := by
  obtain ⟨front, back, hcandidate, -, -, hfound⟩ := schemaOf_eq_ok h
  rcases hfound with ⟨hknown, hext⟩ | ⟨-, hext⟩
  · cases hext
    rw [String.toList_ofList]
    refine (hcandidate.scheme hurn).imp (fun hscheme => ⟨hknown, hscheme, ?_⟩) id
    rw [String.toList_ofList, List.all_eq_true]
    exact fun c hc => List.all_eq_true.mp hlead c (hcandidate.subset hc)
  · cases hext

/-- A leading path that is read: a filter in brackets, components, or the schema of an extension
and what stands behind a schema. -/
inductive LeadRead (r : Registry) (text : List Char) : List Segment → Prop where
  | bracketed {inner : List Char} {segments : List Segment} (hwrap : unwrapped? text = some inner)
      (hread : generalFilter inner = .ok segments) : LeadRead r text segments
  | plain {parts : List (String × Option String)} {segments : List Segment}
      (hwrap : unwrapped? text = none) (hurn : beginsWith "urn:".toList text = false)
      (hparts : components text 0 = .ok parts) (hsegments : segmentsOf parts = .ok segments) :
      LeadRead r text segments
  | extension {urn : String} (hwrap : unwrapped? text = none)
      (hurn : beginsWith "urn:".toList text = true)
      (hschema : schemaOf r text = .ok (some urn, [])) : LeadRead r text [.name urn]
  | behind {ext : Option String} {rest : List Char} {parts : List (String × Option String)}
      {segments : List Segment} (hwrap : unwrapped? text = none)
      (hurn : beginsWith "urn:".toList text = true)
      (hschema : schemaOf r text = .ok (ext, rest)) (hrest : rest ≠ [])
      (hparts : components rest (utf8Length text - utf8Length rest) = .ok parts)
      (hsegments : segmentsOf parts = .ok segments) :
      LeadRead r text ((ext.map Segment.name).toList ++ segments)

theorem attributePath_read {text : List Char} {segments : List Segment}
    (h : attributePath r text = .ok segments) : LeadRead r text segments := by
  unfold attributePath at h
  split at h
  case h_1 hwrap => exact .bracketed hwrap h
  case h_2 hwrap =>
    split at h
    case isFalse hurn =>
      obtain ⟨parts, hparts, hsegments⟩ := bind_eq_ok.mp h
      exact .plain hwrap (by simpa using hurn) hparts hsegments
    case isTrue hurn =>
      obtain ⟨⟨ext, rest⟩, hschema, h⟩ := bind_eq_ok.mp h
      dsimp only at h
      split at h
      case isTrue hempty =>
        cases List.isEmpty_iff.mp hempty
        cases ext with
        | none => cases h
        | some urn =>
          cases h
          exact .extension hwrap hurn hschema
      case isFalse hempty =>
        obtain ⟨parts, hparts, h⟩ := bind_eq_ok.mp h
        obtain ⟨segs, hsegments, h⟩ := bind_eq_ok.mp h
        cases h
        exact .behind hwrap hurn hschema (by simpa using hempty) hparts hsegments

/-- Behind the schema of a path stand components, if anything. -/
theorem attributePath_behind {text rest : List Char} {ext : Option String}
    {segments : List Segment} (hwrap : unwrapped? text = none)
    (hurn : beginsWith "urn:".toList text = true) (hschema : schemaOf r text = .ok (ext, rest))
    (h : attributePath r text = .ok segments) :
    ∃ ps : List (String × Option String),
      segments = (ext.map Segment.name).toList ++ ps.map segment ∧ (∀ p ∈ ps, IsComponent p) ∧
        (ps = [] → ext ≠ none) := by
  cases attributePath_read h with
  | bracketed hwrap' => cases hwrap.symm.trans hwrap'
  | plain _ hurn' => cases hurn.symm.trans hurn'
  | extension _ _ hfound =>
    cases hschema.symm.trans hfound
    exact ⟨[], by simp, by simp, by simp⟩
  | behind _ _ hfound hrest hparts hsegments =>
    cases hschema.symm.trans hfound
    obtain ⟨ps, rfl, hne, hps⟩ := segmentsOf_components hparts hsegments
    exact ⟨ps, rfl, hps, fun hnil => absurd hnil hne⟩

/-- The segments of a path that was read are those of an extension, or none, and components. -/
theorem attributePath_eq_ok {text : List Char} {segments : List Segment}
    (hlead : (schemaPart text).all isLeadChar = true) (hwrap : unwrapped? text = none)
    (h : attributePath r text = .ok segments) :
    ∃ ext ps, IsPath r ext ps ∧ segments = pathSegments ext ps := by
  have hunder {ext : Option String} {rest : List Char} (hurn : beginsWith "urn:".toList text = true)
      (hschema : schemaOf r text = .ok (ext, rest)) :
      ∃ ext ps, IsPath r ext ps ∧ segments = pathSegments ext ps := by
    obtain ⟨ps, rfl, hps, hnonempty⟩ := attributePath_behind hwrap hurn hschema h
    cases ext with
    | none => exact ⟨none, ps, ⟨by simp, hps, hnonempty⟩, rfl⟩
    | some urn =>
      rcases schemaOf_extension hlead hurn hschema with hext | hname
      · exact ⟨some urn, ps, ⟨by simpa using hext, hps, by simp⟩, rfl⟩
      · -- a schema that is no URN stands as the first component
        have hfirst : IsComponent (urn, none) := ⟨hname, by simp⟩
        exact ⟨none, (urn, none) :: ps,
          ⟨by simp, List.forall_mem_cons.mpr ⟨hfirst, hps⟩, by simp⟩, rfl⟩
  cases attributePath_read h with
  | bracketed hwrap' => cases hwrap.symm.trans hwrap'
  | extension _ hurn hschema => exact hunder hurn hschema
  | behind _ hurn hschema => exact hunder hurn hschema
  | plain _ hurn hparts hsegments =>
    obtain ⟨ps, rfl, hne, hps⟩ := segmentsOf_components hparts hsegments
    exact ⟨none, ps, ⟨by simp, hps, fun hnil => absurd hnil hne⟩, rfl⟩

/-! ### Expressions -/

/-- The segments of an expression: a filter, a path, or a path that ends with an extension or a
selection and the test of one more name behind it. -/
inductive Shape (r : Registry) : List Segment → Prop where
  | filter {text : String} (h : Normal text) : Shape r [.test text]
  | path {ext : Option String} {ps : List (String × Option String)} (h : IsPath r ext ps) :
    Shape r (pathSegments ext ps)
  | tested {ext : Option String} {ps : List (String × Option String)} {f : Filter} {name : String}
    (h : IsPath r ext ps) (hlast : ∀ p ∈ ps.getLast?, p.2 ≠ none) (hf : f.WellFormed)
    (hpath : f.testPath? = some (.ofName name)) (hnot : sameName name "not" = false) :
    Shape r (pathSegments ext ps ++ [.test f.toText])

theorem normal_test {f : Filter} {name : String} (hf : f.WellFormed)
    (hpath : f.testPath? = some (.ofName name)) : Normal f.toText := by
  refine ⟨f, hf, ?_, rfl⟩
  cases f <;> cases hpath <;> rfl

theorem pathSegments_snoc (ext : Option String) (ps : List (String × Option String))
    (p : String × Option String) :
    pathSegments ext (ps ++ [p]) = pathSegments ext ps ++ [segment p] := by
  simp [pathSegments]

theorem isUrn_name {name : String} (h : isAttributeName name.toList = true) :
    isUrn name = false := by
  have hbegins : beginsWith "urn:".toList (name.toList ++ []) = false :=
    Filter.beginsWith_urn_name h (by simp)
  rwa [List.append_nil] at hbegins

/-- Segments with a test behind them: the last takes it into its brackets when it is a name. -/
def attached (front : List Segment) (text : String) : List Segment :=
  match front.reverse with
  | .name owner :: rest =>
    if isUrn owner then front ++ [.test text] else rest.reverse ++ [.selection owner text]
  | _ => front ++ [.test text]

/-- Behind a name, what is read as one test of it is attached to the segments before the name. -/
theorem attach?_read (front : List Segment) {last : String} {rest : List Char} {f : Filter}
    (hlast : isUrn last = false)
    (hread : Filter.parse (last ++ " " ++ String.ofList rest) = .ok f) :
    attach? (front ++ [.name last]) rest = f.testPath?.map fun _ => attached front f.toText := by
  have hfront : front = front.reverse.reverse := front.reverse_reverse.symm
  simp only [attach?, attached, List.reverse_append, List.reverse_singleton,
    List.singleton_append, hlast, hread, Bool.false_eq_true, if_false]
  generalize front.reverse = back at hfront
  subst hfront
  cases f <;> simp only [Filter.testPath?, Option.map_some, Option.map_none] <;>
  · split
    · split <;> simp [*]
    · simp

/-- What is attached was read as one test of the last name. -/
theorem attach?_eq_some {segments result : List Segment} {rest : List Char}
    (h : attach? segments rest = some result) :
    ∃ front last f a, segments = front ++ [.name last] ∧ isUrn last = false ∧
      Filter.parse (last ++ " " ++ String.ofList rest) = .ok f ∧ f.testPath? = some a ∧
      result = attached front f.toText := by
  rcases List.eq_nil_or_concat segments with rfl | ⟨front, s, rfl⟩
  · cases h
  rw [List.concat_eq_append] at h ⊢
  cases s with
  | selection name text => simp [attach?] at h
  | test text => simp [attach?] at h
  | name last =>
    cases hlast : isUrn last with
    | true => simp [attach?, hlast] at h
    | false =>
      cases hread : Filter.parse (last ++ " " ++ String.ofList rest) with
      | error e => simp [attach?, hlast, hread] at h
      | ok f =>
        rw [attach?_read front hlast hread] at h
        obtain ⟨a, ha, rfl⟩ := Option.map_eq_some_iff.mp h
        exact ⟨front, last, f, a, rfl, hlast, hread, ha, rfl⟩

/-- Behind an extension or a selection a test stands by itself. -/
theorem attached_selection {ext : Option String} {ps : List (String × Option String)}
    (hext : ∀ urn ∈ ext, IsExtension r urn) (hlast : ∀ p ∈ ps.getLast?, p.2 ≠ none)
    (text : String) :
    attached (pathSegments ext ps) text = pathSegments ext ps ++ [.test text] := by
  rcases List.eq_nil_or_concat ps with rfl | ⟨front, ⟨name, filter⟩, rfl⟩
  · cases ext with
    | none => rfl
    | some urn => simp [attached, pathSegments, (hext urn rfl).scheme]
  · rw [List.concat_eq_append] at hlast ⊢
    obtain ⟨inner, rfl⟩ := Option.ne_none_iff_exists'.mp (hlast (name, filter) (by simp))
    simp [attached, pathSegments_snoc, segment]

/-- Behind a name a test goes into its brackets. -/
theorem attached_name {ext : Option String} {ps : List (String × Option String)} {name : String}
    (hname : isUrn name = false) (text : String) :
    attached (pathSegments ext (ps ++ [(name, none)])) text =
      pathSegments ext (ps ++ [(name, some text)]) := by
  simp [attached, pathSegments_snoc, segment, hname]

theorem attached_shape {ext : Option String} {ps : List (String × Option String)} {name : String}
    {f : Filter} (hext : ∀ urn ∈ ext, IsExtension r urn) (hps : ∀ p ∈ ps, IsComponent p)
    (hf : f.WellFormed) (hpath : f.testPath? = some (.ofName name))
    (hnot : sameName name "not" = false) : Shape r (attached (pathSegments ext ps) f.toText) := by
  by_cases hempty : ps = [] ∧ ext = none
  · obtain ⟨rfl, rfl⟩ := hempty
    exact .filter (normal_test hf hpath)
  by_cases hlast : ∀ p ∈ ps.getLast?, p.2 ≠ none
  · -- the last segment has brackets already, or is the extension
    have hpathed : IsPath r ext ps := ⟨hext, hps, fun hnil hnone => hempty ⟨hnil, hnone⟩⟩
    rw [attached_selection hext hlast]
    exact .tested hpathed hlast hf hpath hnot
  · obtain ⟨owner, front, rfl⟩ : ∃ owner front, ps = front ++ [(owner, none)] := by
      rcases List.eq_nil_or_concat ps with rfl | ⟨front, ⟨owner, filter⟩, rfl⟩
      · exact absurd (by simp) hlast
      · rw [List.concat_eq_append] at hlast ⊢
        exact ⟨owner, front, by simpa using hlast⟩
    have howner := (hps (owner, none) (by simp)).name
    have hselection : IsComponent (owner, some f.toText) :=
      ⟨howner, by simpa using normal_test hf hpath⟩
    have hfront : ∀ p ∈ front, IsComponent p := fun p hp => hps p (List.mem_append_left _ hp)
    rw [attached_name (isUrn_name howner)]
    exact .path ⟨hext, List.forall_mem_append.mpr ⟨hfront, by simpa using hselection⟩, by simp⟩

theorem generalFilter_shape {text : List Char} {segments : List Segment}
    (h : generalFilter text = .ok segments) : Shape r segments := by
  obtain ⟨filter, hfilter, rfl⟩ := map_eq_ok.mp h
  exact .filter (normalizeFilter_normal hfilter)

theorem attach?_shape {ext : Option String} {ps : List (String × Option String)} {rest : List Char}
    {segments : List Segment} (h : IsPath r ext ps)
    (hattach : attach? (pathSegments ext ps) rest = some segments) : Shape r segments := by
  obtain ⟨front, last, f, a, hsegments, hlast, hread, hpath, rfl⟩ := attach?_eq_some hattach
  rcases List.eq_nil_or_concat ps with rfl | ⟨before, p, rfl⟩
  · obtain ⟨urn, rfl⟩ := Option.ne_none_iff_exists'.mp (h.nonempty rfl)
    have hsplit : [] ++ [Segment.name urn] = front ++ [.name last] := hsegments
    obtain ⟨-, hname⟩ := List.append_inj' hsplit rfl
    cases hname
    exact absurd (h.extension last rfl).scheme (by simp [hlast])
  · rw [List.concat_eq_append] at h hsegments
    have hp := h.components p (by simp)
    have hbefore : ∀ q ∈ before, IsComponent q := fun q hq =>
      h.components q (List.mem_append_left _ hq)
    rw [pathSegments_snoc] at hsegments
    obtain ⟨rfl, hname⟩ := List.append_inj' hsegments rfl
    obtain rfl : p = (last, none) := by
      obtain ⟨name, filter⟩ := p
      cases filter <;> cases hname
      rfl
    have htext : last ++ " " ++ String.ofList rest =
        String.ofList (last.toList ++ ' ' :: rest) := by
      simp [← String.toList_inj]
    obtain ⟨rfl, hnot⟩ := Filter.parse_testPath hp.name (htext ▸ hread) hpath
    exact attached_shape h.extension hbefore (Filter.parse_wellFormed hread) hpath hnot

/-- A text that is read: as one filter, as a leading path with nothing behind it, or as one to
which what stands behind it is attached. -/
inductive TextRead (r : Registry) (text lead rest : List Char) : List Segment → Prop where
  | filter {segments : List Segment} (hread : generalFilter text = .ok segments) :
      TextRead r text lead rest segments
  | path {segments : List Segment} (hrest : rest = [])
      (hread : attributePath r lead = .ok segments) : TextRead r text lead rest segments
  | attached {front segments : List Segment} (hwrap : unwrapped? lead = none) (hrest : rest ≠ [])
      (hread : attributePath r lead = .ok front) (hattach : attach? front rest = some segments) :
      TextRead r text lead rest segments

theorem parseTrimmed_read {text : List Char} {segments : List Segment}
    (h : parseTrimmed r text = .ok segments) :
    ∃ stop lead back, leadEnd text = .ok stop ∧ cut text 0 stop = .ok lead ∧
      cut text stop (utf8Length text) = .ok back ∧
      TextRead r text lead (trimBlanks back) segments := by
  obtain ⟨stop, hstop, h⟩ := bind_eq_ok.mp h
  obtain ⟨lead, hlead, h⟩ := bind_eq_ok.mp h
  obtain ⟨back, hback, h⟩ := bind_eq_ok.mp h
  refine ⟨stop, lead, back, hstop, hlead, hback, ?_⟩
  dsimp only at h
  split at h
  case isTrue => exact .filter h
  case isFalse hstart =>
    split at h
    case isTrue hempty => exact .path (List.isEmpty_iff.mp hempty) h
    case isFalse hrest =>
      split at h
      case isTrue => exact .filter h
      case isFalse =>
        obtain ⟨front, hfront, h⟩ := bind_eq_ok.mp h
        split at h
        case h_2 => exact .filter h
        case h_1 hattach =>
          cases h
          -- a bracket begins no path that something stands behind
          have hwrap : unwrapped? lead = none :=
            unwrapped?_eq_none fun hbracket => hstart (by simp [hbracket, hrest])
          exact .attached hwrap (by simpa using hrest) hfront hattach

theorem parseTrimmed_shape {text : List Char} {segments : List Segment}
    (h : parseTrimmed r text = .ok segments) : Shape r segments := by
  obtain ⟨stop, lead, back, hstop, hlead, -, hread⟩ := parseTrimmed_read h
  have hletters := leadEnd_lead hstop hlead
  cases hread with
  | filter hread => exact generalFilter_shape hread
  | path _ hread =>
    cases hwrap : unwrapped? lead with
    | some inner =>
      simp only [attributePath, hwrap] at hread
      exact generalFilter_shape hread
    | none =>
      obtain ⟨ext, ps, hps, rfl⟩ := attributePath_eq_ok hletters hwrap hread
      exact .path hps
  | attached hwrap _ hread hattach =>
    obtain ⟨ext, ps, hps, rfl⟩ := attributePath_eq_ok hletters hwrap hread
    exact attach?_shape hps hattach

/-- The segments that reading gives have one of the shapes. -/
theorem parse_shape {text : String} {e : Expression} (h : parse r text = .ok e) :
    Shape r e.segments := by
  obtain ⟨-, h⟩ := guard_eq_ok.mp h
  obtain ⟨-, h⟩ := guard_eq_ok.mp h
  obtain ⟨segments, hsegments, rfl⟩ := map_eq_ok.mp h
  exact parseTrimmed_shape hsegments

end Expression

end Roster
