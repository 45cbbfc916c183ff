import Mathlib.Data.List.TakeWhile
import Roster.Proofs.Expression.Components
import Roster.Proofs.Filter.Reading

/-!
Attribute paths: the schema that a path is read under, and the segments behind it. The candidates
for the schema are the fronts of the path that end at a colon, and first the whole of it up to its
first bracket.
-/

namespace Roster

namespace Expression

/-! ### Positions -/

theorem positionsOf_append (p : Char → Bool) (xs ys : List Char) (n : Nat) :
    positionsOf p (xs ++ ys) n = positionsOf p xs n ++ positionsOf p ys (n + utf8Length xs) := by
  induction xs generalizing n with
  | nil => simp [positionsOf]
  | cons x xs ih =>
    by_cases hx : p x = true <;> simp [positionsOf, hx, ih, Nat.add_assoc]

theorem positionsOf_none {p : Char → Bool} {cs : List Char} (h : ∀ c ∈ cs, p c = false) (n : Nat) :
    positionsOf p cs n = [] := by
  induction cs generalizing n with
  | nil => rfl
  | cons c cs ih =>
    simp [positionsOf, h c List.mem_cons_self, ih fun d hd => h d (List.mem_cons_of_mem c hd)]

theorem mem_positionsOf {p : Char → Bool} {cs : List Char} {n stop : Nat}
    (h : stop ∈ positionsOf p cs n) :
    ∃ front c back, cs = front ++ c :: back ∧ p c = true ∧ stop = n + utf8Length front := by
  induction cs generalizing n with
  | nil => cases h
  | cons c cs ih =>
    have later (h : stop ∈ positionsOf p cs (n + c.utf8Size)) :
        ∃ front d back, c :: cs = front ++ d :: back ∧ p d = true ∧
          stop = n + utf8Length front := by
      obtain ⟨front, d, back, rfl, hd, rfl⟩ := ih h
      exact ⟨c :: front, d, back, rfl, hd, by simp [Nat.add_assoc]⟩
    rw [positionsOf] at h
    split at h
    case isTrue hc =>
      rcases List.mem_cons.mp h with rfl | h
      · exact ⟨[], c, cs, rfl, hc, by simp⟩
      · exact later h
    case isFalse => exact later h

/-- The part of a path in which a schema is looked for: up to its first bracket. -/
def schemaPart (text : List Char) : List Char :=
  text.takeWhile (· != '[')

theorem mem_schemaPart {text : List Char} {c : Char} (h : c ∈ schemaPart text) : c ≠ '[' := by
  have hall := List.all_takeWhile (p := (· != '[')) (l := text)
  simpa using List.all_eq_true.mp hall c h

/-- A text goes on with a bracket behind its schema part, or ends with it. -/
theorem schemaPart_prefix (text : List Char) :
    ∃ back, text = schemaPart text ++ back ∧ ∀ c ∈ back.head?, c = '[' := by
  refine ⟨text.dropWhile (· != '['), (List.takeWhile_append_dropWhile ..).symm, fun c hc => ?_⟩
  have h := List.head?_dropWhile_not (· != '[') text
  rw [hc] at h
  simpa using h

theorem cut_schemaPart (text : List Char) :
    cut text 0 (((positionsOf (· == '[') text 0).head?).getD (utf8Length text)) =
      .ok (schemaPart text) := by
  obtain ⟨back, htext, hback⟩ := schemaPart_prefix text
  have hnone : positionsOf (· == '[') (schemaPart text) 0 = [] :=
    positionsOf_none (fun c hc => by simpa using mem_schemaPart hc) 0
  generalize schemaPart text = head at htext hnone ⊢
  subst htext
  have hstop : ((positionsOf (· == '[') (head ++ back) 0).head?).getD (utf8Length (head ++ back)) =
      utf8Length head := by
    rw [positionsOf_append, hnone, List.nil_append, Nat.zero_add]
    cases back with
    | nil => simp [positionsOf]
    | cons c back =>
      cases hback c rfl
      simp [positionsOf]
  rw [hstop, cut_front]

/-! ### The schema of a path -/

/-- The text without a colon in front. -/
def dropColon : List Char → List Char
  | ':' :: rest => rest
  | rest => rest

variable {r : Registry} {text : List Char}

theorem splitAtSchema_cons {front back head : List Char} {stops : List Nat}
    (htext : text = front ++ back) :
    splitAtSchema r text head (utf8Length front :: stops) =
      if r.isKnownExtension (String.ofList front) then
        .ok (some (String.ofList front), dropColon back)
      else if isCoreSchema (String.ofList front) then .ok (none, dropColon back)
      else splitAtSchema r text head stops := by
  rw [splitAtSchema, htext, cut_front, cut_back]
  rfl

theorem schemaOf_eq : schemaOf r text = splitAtSchema r text (schemaPart text)
    (utf8Length (schemaPart text) :: (positionsOf (· == ':') (schemaPart text) 0).reverse) := by
  rw [schemaOf, cut_schemaPart]
  rfl

/-- The whole schema part is the first candidate. -/
theorem schemaOf_whole {back : List Char} (htext : text = schemaPart text ++ back) :
    schemaOf r text =
      if r.isKnownExtension (String.ofList (schemaPart text)) then
        .ok (some (String.ofList (schemaPart text)), dropColon back)
      else if isCoreSchema (String.ofList (schemaPart text)) then .ok (none, dropColon back)
      else splitAtSchema r text (schemaPart text)
        (positionsOf (· == ':') (schemaPart text) 0).reverse := by
  rw [schemaOf_eq, splitAtSchema_cons htext]

/-- A schema that was found is one of the candidates, and what is left begins behind it. -/
theorem splitAtSchema_eq_ok {head rest : List Char} {stops : List Nat} {ext : Option String}
    (candidate : List Char → List Char → Prop)
    (hstops : ∀ stop ∈ stops, ∃ front back,
      text = front ++ back ∧ stop = utf8Length front ∧ candidate front back)
    (h : splitAtSchema r text head stops = .ok (ext, rest)) :
    ∃ front back, candidate front back ∧ text = front ++ back ∧ rest = dropColon back ∧
      (r.isKnownExtension (String.ofList front) = true ∧ ext = some (String.ofList front) ∨
        isCoreSchema (String.ofList front) = true ∧ ext = none) := by
  induction stops with
  | nil => cases h
  | cons stop stops ih =>
    obtain ⟨front, back, htext, rfl, hcandidate⟩ := hstops stop List.mem_cons_self
    rw [splitAtSchema_cons htext] at h
    split at h
    case isTrue hknown =>
      cases h
      exact ⟨front, back, hcandidate, htext, rfl, .inl ⟨hknown, rfl⟩⟩
    case isFalse =>
      split at h
      case isTrue hcore =>
        cases h
        exact ⟨front, back, hcandidate, htext, rfl, .inr ⟨hcore, rfl⟩⟩
      case isFalse => exact ih (fun s hs => hstops s (List.mem_cons_of_mem _ hs)) h

/-- A front that ends the schema part, or has a colon behind it there. -/
def IsCandidate (text front back : List Char) : Prop :=
  front = schemaPart text ∧ (∀ c ∈ back.head?, c = '[') ∨
    ∃ more, schemaPart text = front ++ ':' :: more ∧ ∃ rest, back = ':' :: rest

theorem schemaOf_eq_ok {rest : List Char} {ext : Option String}
    (h : schemaOf r text = .ok (ext, rest)) :
    ∃ front back, IsCandidate text front back ∧ text = front ++ back ∧ rest = dropColon back ∧
      (r.isKnownExtension (String.ofList front) = true ∧ ext = some (String.ofList front) ∨
        isCoreSchema (String.ofList front) = true ∧ ext = none) := by
  rw [schemaOf_eq] at h
  refine splitAtSchema_eq_ok (IsCandidate text) (fun stop hstop => ?_) h
  obtain ⟨back, htext, hback⟩ := schemaPart_prefix text
  rcases List.mem_cons.mp hstop with rfl | hstop
  · exact ⟨_, back, htext, rfl, .inl ⟨rfl, hback⟩⟩
  · obtain ⟨front, c, more, hpart, hc, rfl⟩ := mem_positionsOf (List.mem_reverse.mp hstop)
    cases beq_iff_eq.mp hc
    refine ⟨front, ':' :: (more ++ back), ?_, Nat.zero_add _, .inr ⟨more, hpart, _, rfl⟩⟩
    conv_lhs => rw [htext, hpart]
    simp

/-- A path whose whole schema part is no schema is read under the schema before its last colon. -/
theorem schemaOf_lastColon {front back more : List Char} (htext : text = front ++ ':' :: back)
    (hpart : schemaPart text = front ++ ':' :: more) (hmore : ':' ∉ more)
    (hknown : r.isKnownExtension (String.ofList (schemaPart text)) = false)
    (hcore : isCoreSchema (String.ofList (schemaPart text)) = false) :
    ∃ stops, (∀ stop ∈ stops, ∃ before after, front = before ++ ':' :: after ∧
        stop = utf8Length before) ∧
      schemaOf r text =
        if r.isKnownExtension (String.ofList front) then .ok (some (String.ofList front), back)
        else if isCoreSchema (String.ofList front) then .ok (none, back)
        else splitAtSchema r text (schemaPart text) stops := by
  -- the last colon is tried right after the whole, since none stands in `more`
  have hpositions : (positionsOf (· == ':') (schemaPart text) 0).reverse =
      utf8Length front :: (positionsOf (· == ':') front 0).reverse := by
    have hnone : ∀ n, positionsOf (· == ':') more n = [] := positionsOf_none fun c hc => by
      rw [beq_eq_false_iff_ne]
      rintro rfl
      exact hmore hc
    rw [hpart, positionsOf_append]
    simp [positionsOf, hnone]
  obtain ⟨rest, hrest, -⟩ := schemaPart_prefix text
  refine ⟨(positionsOf (· == ':') front 0).reverse, fun stop hstop => ?_, ?_⟩
  · obtain ⟨before, c, after, hfront, hc, rfl⟩ := mem_positionsOf (List.mem_reverse.mp hstop)
    cases beq_iff_eq.mp hc
    exact ⟨before, after, hfront, Nat.zero_add _⟩
  · rw [schemaOf_eq, hpositions, splitAtSchema_cons hrest, hknown, hcore,
      splitAtSchema_cons htext]
    rfl

/-! ### Segments -/

/-- A text is that of a filter in bracket form. -/
def Normal (text : String) : Prop :=
  ∃ f : Filter, f.WellFormed ∧ f.bracketed = f ∧ f.toText = text

theorem normalizeFilter_normal {filter : String} (h : normalizeFilter text = .ok filter) :
    Normal filter := by
  simp only [normalizeFilter] at h
  split at h
  case h_1 f hf =>
    cases h
    exact ⟨f.bracketed, (Filter.parse_wellFormed hf).bracketed, f.bracketed_bracketed, rfl⟩
  case h_2 => cases h

/-- A text is read as a filter in bracket form. -/
def Reread (text : String) : Prop :=
  ∃ f : Filter, Filter.parse text = .ok f ∧ f.bracketed = f ∧ f.toText = text

theorem Reread.normalizeFilter {filter : String} (h : Reread filter) :
    normalizeFilter filter.toList = .ok filter := by
  obtain ⟨f, hparse, hbracketed, htext⟩ := h
  rw [Expression.normalizeFilter, String.ofList_toList, hparse]
  simp only [hbracketed, htext]

/-- The segment of a component. -/
def segment : String × Option String → Segment
  | (name, none) => .name name
  | (name, some filter) => .selection name filter

theorem segmentsOf_reread {ps : List (String × Option String)}
    (hps : ∀ p ∈ ps, ∀ filter ∈ p.2, Reread filter) : segmentsOf ps = .ok (ps.map segment) := by
  induction ps with
  | nil => rfl
  | cons p ps ih =>
    have hrest := ih fun q hq => hps q (List.mem_cons_of_mem p hq)
    obtain ⟨name, filter⟩ := p
    cases filter with
    | none => simp [segmentsOf, segment, hrest, bind, Except.bind]
    | some filter =>
      have hfilter := (hps _ List.mem_cons_self filter rfl).normalizeFilter
      simp [segmentsOf, segment, hrest, hfilter, bind, Except.bind, Except.map]

/-- The name of an attribute, with or without the text of a filter in bracket form. -/
structure IsComponent (p : String × Option String) : Prop where
  name : isAttributeName p.1.toList = true
  filter : ∀ text ∈ p.2, Normal text

theorem IsComponent.isPart {p : String × Option String} (h : IsComponent p) : IsPart p :=
  ⟨h.name, fun text ht => by
    obtain ⟨f, hf, -, rfl⟩ := h.filter text ht
    exact balanced_filter hf⟩

theorem segmentsOf_eq_ok {ps : List (String × Option String)} {segments : List Segment}
    (hps : ∀ p ∈ ps, isAttributeName p.1.toList = true) (h : segmentsOf ps = .ok segments) :
    ∃ qs : List (String × Option String), segments = qs.map segment ∧ qs.length = ps.length ∧
      ∀ q ∈ qs, IsComponent q := by
  induction ps generalizing segments with
  | nil =>
    cases h
    exact ⟨[], rfl, rfl, by simp⟩
  | cons p ps ih =>
    obtain ⟨name, filter⟩ := p
    have hname := hps _ List.mem_cons_self
    have hrest : ∀ p ∈ ps, isAttributeName p.1.toList = true :=
      fun q hq => hps q (List.mem_cons_of_mem _ hq)
    simp only [segmentsOf] at h
    cases filter with
    | none =>
      obtain ⟨first, hfirst, h⟩ := bind_eq_ok.mp h
      obtain ⟨more, hmore, h⟩ := bind_eq_ok.mp h
      cases hfirst
      cases h
      obtain ⟨qs, rfl, hlength, hqs⟩ := ih hrest hmore
      exact ⟨(name, none) :: qs, rfl, by simp [hlength],
        List.forall_mem_cons.mpr ⟨⟨hname, by simp⟩, hqs⟩⟩
    | some filter =>
      obtain ⟨first, hfirst, h⟩ := bind_eq_ok.mp h
      obtain ⟨more, hmore, h⟩ := bind_eq_ok.mp h
      obtain ⟨normalized, hfilter, rfl⟩ := map_eq_ok.mp hfirst
      cases h
      obtain ⟨qs, rfl, hlength, hqs⟩ := ih hrest hmore
      refine ⟨(name, some normalized) :: qs, rfl, by simp [hlength],
        List.forall_mem_cons.mpr ⟨⟨hname, ?_⟩, hqs⟩⟩
      rintro text ⟨⟩
      exact normalizeFilter_normal hfilter

/-! ### Reading attribute paths -/

theorem partText_name (p : String × Option String) :
    ∃ rest, partText p = p.1.toList ++ rest ∧ ∀ c ∈ rest.head?, c = '[' := by
  obtain ⟨name, filter⟩ := p
  cases filter with
  | none => exact ⟨[], by simp [partText], by simp⟩
  | some filter => exact ⟨_, rfl, by simp⟩

/-- Joined components begin with the name of the first. -/
theorem joinParts_name (p : String × Option String) (ps : List (String × Option String)) :
    ∃ rest, joinParts (p :: ps) = p.1.toList ++ rest ∧ ∀ c ∈ rest.head?, c = '[' ∨ c = '.' := by
  obtain ⟨rest, hpart, hrest⟩ := partText_name p
  cases ps with
  | nil => exact ⟨rest, hpart, fun c hc => .inl (hrest c hc)⟩
  | cons q ps =>
    refine ⟨rest ++ '.' :: joinParts (q :: ps), by simp [joinParts, hpart], fun c hc => ?_⟩
    cases rest with
    | nil =>
      cases hc
      exact .inr rfl
    | cons d rest => exact .inl (hrest c hc)

theorem unwrapped?_eq_none {text : List Char} (h : text.head? ≠ some '[') :
    unwrapped? text = none := by
  cases text with
  | nil => rfl
  | cons c cs =>
    have hc : c ≠ '[' := by simpa using h
    simp [unwrapped?, hc]

theorem unwrapped?_name {name : List Char} (h : isAttributeName name = true) (rest : List Char) :
    unwrapped? (name ++ rest) = none := by
  refine unwrapped?_eq_none fun hbracket => ?_
  cases name with
  | nil => cases h
  | cons c cs =>
    cases hbracket
    exact Filter.not_mem_of_isAttributeName h (c := '[') rfl List.mem_cons_self

/-- The segments of components that nothing stands in front of. -/
theorem attributePath_names {ps : List (String × Option String)} {qs : List Segment} (hne : ps ≠ [])
    (hps : ∀ p ∈ ps, IsPart p) (hqs : segmentsOf ps = .ok qs) :
    attributePath r (joinParts ps) = .ok qs := by
  have hparts := components_joinParts 0 ps hne hps
  cases ps with
  | nil => exact absurd rfl hne
  | cons p ps =>
    obtain ⟨rest, hjoin, hrest⟩ := joinParts_name p ps
    have hname := (hps p List.mem_cons_self).name
    have hwrap := unwrapped?_name hname rest
    have hurn : beginsWith "urn:".toList (p.1.toList ++ rest) = false := by
      refine Filter.beginsWith_urn_name hname fun c hc => ?_
      rcases hrest c hc with rfl | rfl <;> decide
    rw [← hjoin] at hwrap hurn
    simp only [attributePath, hwrap, hurn, hparts]
    exact hqs

theorem attributePath_unqualified (ps : List (String × Option String)) (hne : ps ≠ [])
    (hps : ∀ p ∈ ps, IsPart p) (hfilters : ∀ p ∈ ps, ∀ filter ∈ p.2, Reread filter) :
    attributePath r (joinParts ps) = .ok (ps.map segment) :=
  attributePath_names hne hps (segmentsOf_reread hfilters)

/-- The segments of components behind a schema that was found. -/
theorem attributePath_parts {ext : Option String} {ps : List (String × Option String)}
    {qs : List Segment} (hne : ps ≠ []) (hps : ∀ p ∈ ps, IsPart p) (hqs : segmentsOf ps = .ok qs)
    (hbegins : beginsWith "urn:".toList text = true) (hwrap : unwrapped? text = none)
    (hschema : schemaOf r text = .ok (ext, joinParts ps)) :
    attributePath r text = .ok ((ext.map Segment.name).toList ++ qs) := by
  have hempty : (joinParts ps).isEmpty = false := by
    cases ps with
    | nil => exact absurd rfl hne
    | cons p ps =>
      obtain ⟨rest, hjoin, -⟩ := joinParts_name p ps
      have hne := Filter.ne_nil_of_isAttributeName (hps p List.mem_cons_self).name
      simp [hjoin, hne]
  simp only [attributePath, hwrap, hbegins, hschema, if_true, bind, Except.bind, hempty,
    components_joinParts _ ps hne hps, hqs]
  rfl

theorem colon_not_mem_schemaPart {ps : List (String × Option String)}
    (hps : ∀ p ∈ ps, isAttributeName p.1.toList = true) : ':' ∉ schemaPart (joinParts ps) := by
  induction ps with
  | nil => simp [joinParts, schemaPart]
  | cons p ps ih =>
    have hp := hps p List.mem_cons_self
    have hcolon := Filter.not_mem_of_isAttributeName hp (c := ':') rfl
    have hbracket : ∀ c ∈ p.1.toList, (c != '[') = true := by
      intro c hc
      rw [bne_iff_ne]
      rintro rfl
      exact Filter.not_mem_of_isAttributeName hp (c := '[') rfl hc
    -- the first brackets end the schema part, and up to there only names and dots stand in it
    obtain ⟨name, filter⟩ := p
    cases filter with
    | some filter =>
      have hpart : schemaPart (joinParts ((name, some filter) :: ps)) = name.toList := by
        cases ps <;> simp [joinParts, partText, schemaPart, List.takeWhile_append_of_pos hbracket]
      rwa [hpart]
    | none =>
      cases ps with
      | nil =>
        have hpart : schemaPart (joinParts [(name, none)]) = name.toList :=
          List.takeWhile_eq_self_iff.mpr hbracket
        rwa [hpart]
      | cons q ps =>
        have hrest := ih fun p hp => hps p (List.mem_cons_of_mem _ hp)
        simp only [joinParts, partText, schemaPart, List.takeWhile_append_of_pos hbracket] at *
        simpa using ⟨hcolon, hrest⟩

/-- A registered URN that a path can begin with. -/
structure IsExtension (r : Registry) (urn : String) : Prop where
  known : r.isKnownExtension urn = true
  scheme : isUrn urn = true
  lead : urn.toList.all isLeadChar = true

theorem IsExtension.not_bracket {urn : String} (h : IsExtension r urn) :
    ∀ c ∈ urn.toList, c ≠ '[' := by
  rintro c hc rfl
  have hlead := List.all_eq_true.mp h.lead '[' hc
  exact absurd hlead (by decide)

theorem IsExtension.begins {urn : String} (h : IsExtension r urn) (rest : List Char) :
    beginsWith "urn:".toList (urn.toList ++ rest) = true ∧
      unwrapped? (urn.toList ++ rest) = none := by
  obtain ⟨scheme, more, hurn, hletters, hscheme⟩ := Filter.urn_front h.scheme
  constructor
  · exact beginsWith_append h.scheme rest
  · cases scheme with
    | nil => cases hscheme
    | cons c scheme =>
      rw [List.all_cons, Bool.and_eq_true] at hletters
      refine unwrapped?_eq_none fun hbracket => ?_
      rw [hurn] at hbracket
      cases hbracket
      exact absurd hletters.1 (by decide)

theorem schemaPart_extension {urn : String} (h : IsExtension r urn) (rest : List Char) :
    schemaPart (urn.toList ++ rest) = urn.toList ++ schemaPart rest :=
  List.takeWhile_append_of_pos fun c hc => bne_iff_ne.mpr (h.not_bracket c hc)

/-- A path that is the URN of an extension and nothing else. -/
theorem attributePath_whole {urn : String} (hurn : beginsWith "urn:".toList urn.toList = true)
    (hwrap : unwrapped? urn.toList = none) (hpart : schemaPart urn.toList = urn.toList)
    (hknown : r.isKnownExtension urn = true) : attributePath r urn.toList = .ok [.name urn] := by
  have hschema : schemaOf r urn.toList = .ok (some urn, []) := by
    rw [schemaOf_eq, hpart, splitAtSchema_cons (List.append_nil _).symm, String.ofList_toList,
      if_pos hknown]
    rfl
  simp only [attributePath, hurn, hwrap, hschema, if_true]
  rfl

theorem attributePath_extension {urn : String} (h : IsExtension r urn) :
    attributePath r urn.toList = .ok [.name urn] := by
  have hbegins := h.begins []
  have hpart : schemaPart (urn.toList ++ []) = urn.toList ++ [] := schemaPart_extension h []
  rw [List.append_nil] at hbegins hpart
  exact attributePath_whole hbegins.1 hbegins.2 hpart h.known

/-- The segments behind a schema, when no schema reaches into them. -/
theorem attributePath_qualified {urn : String} {ps : List (String × Option String)}
    {qs : List Segment} (hne : ps ≠ []) (hu : IsExtension r urn) (hps : ∀ p ∈ ps, IsPart p)
    (hqs : segmentsOf ps = .ok qs)
    (htext : text = urn.toList ++ ':' :: joinParts ps)
    (hknown : r.isKnownExtension (String.ofList (schemaPart text)) = false)
    (hcore : isCoreSchema (String.ofList (schemaPart text)) = false) :
    attributePath r text = .ok (.name urn :: qs) := by
  have hbegins := hu.begins (':' :: joinParts ps)
  have hpart : schemaPart text = urn.toList ++ ':' :: schemaPart (joinParts ps) := by
    rw [htext, schemaPart_extension hu]
    rfl
  have hcolon : ':' ∉ schemaPart (joinParts ps) :=
    colon_not_mem_schemaPart fun p hp => (hps p hp).name
  obtain ⟨stops, -, hschema⟩ := schemaOf_lastColon htext hpart hcolon hknown hcore
  rw [String.ofList_toList, if_pos hu.known] at hschema
  rw [← htext] at hbegins
  exact attributePath_parts hne hps hqs hbegins.1 hbegins.2 hschema

end Expression

end Roster
