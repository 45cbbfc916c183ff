import Mathlib.Data.List.Basic
import Roster.Filter.Parser
import Roster.Proofs.Decimal
import Roster.Proofs.Success

/-!
The trees that reading gives. No connective is an operand of a stronger one without parentheses
and chains lean to the left, so that the text of such a tree shows its structure. The bracket form
keeps this. What a reader has read when it gives a value is said once for each reader, as a relation
between the text, the value and the text that is left.
-/

namespace Roster

/-- Names that are attribute names, behind a schema that is a URN. -/
structure AttributePath.WellFormed (a : AttributePath) : Prop where
  name : isAttributeName a.name.toList = true
  sub : ∀ s ∈ a.sub, isAttributeName s.toList = true
  schema : ∀ urn ∈ a.schema, urn.toList.all Filter.isQualifiedChar = true ∧
    beginsWith "urn:".toList (urn.toList ++ [':']) = true

theorem AttributePath.WellFormed.ofName {name : String}
    (h : isAttributeName name.toList = true) : (AttributePath.ofName name).WellFormed :=
  ⟨h, by simp [AttributePath.ofName], by simp [AttributePath.ofName]⟩

theorem AttributePath.WellFormed.withoutSub {a : AttributePath} (h : a.WellFormed) :
    ({ a with sub := none } : AttributePath).WellFormed :=
  ⟨h.name, by simp, h.schema⟩

/-- Whether a path is the mere name `not`, which is read as the keyword. -/
def AttributePath.isNot (a : AttributePath) : Bool :=
  a.schema.isNone && a.sub.isNone && sameName a.name "not"

/-- A number is one that reading gives. -/
def Literal.WellFormed : Literal → Prop
  | .number d => d.InRange
  | _ => True

namespace Filter

/-- The attribute paths of a filter. -/
def paths : Filter → List AttributePath
  | .compare a _ _ => [a]
  | .present a => [a]
  | .select a f => a :: f.paths
  | .and f g => f.paths ++ g.paths
  | .or f g => f.paths ++ g.paths
  | .not f => f.paths
  | .group f => f.paths

/-- The most brackets and parentheses around a point of a filter. -/
def depth : Filter → Nat
  | .compare _ _ _ => 0
  | .present _ => 0
  | .select _ f => f.depth + 1
  | .and f g => max f.depth g.depth
  | .or f g => max f.depth g.depth
  | .not f => f.depth + 1
  | .group f => f.depth + 1

def isOr : Filter → Bool
  | .or _ _ => true
  | _ => false

/-- Whether a filter is neither an `and` nor an `or`. -/
def isOperand : Filter → Bool
  | .and _ _ => false
  | .or _ _ => false
  | _ => true

theorem isOr_of_isOperand {f : Filter} (h : f.isOperand = true) : f.isOr = false := by
  cases f <;> simp_all [isOperand, isOr]

/-- An `and` joins no `or`, and nothing but an operand stands to the right of its connective. -/
def WellFormed : Filter → Prop
  | .compare a _ v => a.WellFormed ∧ v.WellFormed
  | .present a => a.WellFormed
  | .select a f => a.WellFormed ∧ a.sub = none ∧ f.WellFormed
  | .and f g => f.isOr = false ∧ g.isOperand = true ∧ f.WellFormed ∧ g.WellFormed
  | .or f g => g.isOr = false ∧ f.WellFormed ∧ g.WellFormed
  | .not f => f.WellFormed
  | .group f => f.WellFormed

theorem isOr_groupedIfOr (f : Filter) : f.groupedIfOr.isOr = false := by
  cases f <;> rfl

theorem WellFormed.groupedIfOr {f : Filter} (h : f.WellFormed) : f.groupedIfOr.WellFormed := by
  cases f <;> exact h

/-! ### The bracket form -/

theorem isOr_bracketed (f : Filter) : f.bracketed.isOr = f.isOr := by
  cases f with
  | compare a op v => cases h : a.sub <;> simp [bracketed, h, isOr]
  | present a => cases h : a.sub <;> simp [bracketed, h, isOr]
  | _ => rfl

theorem isOperand_bracketed (f : Filter) : f.bracketed.isOperand = f.isOperand := by
  cases f with
  | compare a op v => cases h : a.sub <;> simp [bracketed, h, isOperand]
  | present a => cases h : a.sub <;> simp [bracketed, h, isOperand]
  | _ => rfl

theorem WellFormed.bracketed {f : Filter} (h : f.WellFormed) : f.bracketed.WellFormed := by
  induction f with
  | compare a op v =>
    cases hsub : a.sub with
    | none => simpa only [Filter.bracketed, hsub] using h
    | some sub =>
      simp only [Filter.bracketed, hsub]
      exact ⟨h.1.withoutSub, rfl, .ofName (h.1.sub sub hsub), h.2⟩
  | present a =>
    cases hsub : a.sub with
    | none => simpa only [Filter.bracketed, hsub] using h
    | some sub =>
      simp only [Filter.bracketed, hsub]
      have ha : a.WellFormed := h
      exact ⟨ha.withoutSub, rfl, .ofName (ha.sub sub hsub)⟩
  | select a f ih => exact ⟨h.1, h.2.1, ih h.2.2⟩
  | and f g ihf ihg =>
    exact ⟨(isOr_bracketed f).trans h.1, (isOperand_bracketed g).trans h.2.1, ihf h.2.2.1,
      ihg h.2.2.2⟩
  | or f g ihf ihg => exact ⟨(isOr_bracketed g).trans h.1, ihf h.2.1, ihg h.2.2⟩
  | not f ih => exact ih h
  | group f ih => exact ih h

/-! ### Reading -/

/-- Whatever a reader gives has a property. -/
def Gives {α : Type} (scan : Scan α) (p : α → Prop) : Prop :=
  ∀ ⦃cs x rest⦄, scan cs = .ok (x, rest) → p x

/-! ### What is read -/

theorem scanName_iff {cs rest : List Char} {name : String} : scanName cs = .ok (name, rest) ↔
    ∃ c more, skipBlanks cs = c :: more ∧ isNameStart c = true ∧
      name = String.ofList (c :: more.takeWhile isNameChar) ∧ rest = more.dropWhile isNameChar := by
  constructor
  · intro h
    simp only [scanName] at h
    split at h
    case h_2 => cases h
    case h_1 c more hskip =>
      split at h
      case isFalse => cases h
      case isTrue hstart =>
        cases h
        exact ⟨c, more, hskip, hstart, rfl, rfl⟩
  · rintro ⟨c, more, hskip, hstart, rfl, rfl⟩
    simp only [scanName, hskip, hstart, if_true]

/-- The path that a text behind no blanks and with no end is, if its names are attribute names. -/
def qualifiedPath? (token : List Char) : Option AttributePath :=
  let (schema, path) := splitLastColon token
  match path.splitOnP (· == '.') with
  | [name] =>
    if isAttributeName name then some ⟨some (String.ofList schema), String.ofList name, none⟩
    else none
  | [name, sub] =>
    if isAttributeName name && isAttributeName sub then
      some ⟨some (String.ofList schema), String.ofList name, some (String.ofList sub)⟩
    else none
  | _ => none

theorem scanQualified_iff {cs rest : List Char} {a : AttributePath} :
    scanQualified cs = .ok (a, rest) ↔
      qualifiedPath? (cs.takeWhile isQualifiedChar) = some a ∧
        cs.dropWhile isQualifiedChar = rest := by
  simp only [scanQualified, qualifiedPath?]
  generalize (splitLastColon (cs.takeWhile isQualifiedChar)).2.splitOnP (· == '.') = names
  rcases names with _ | ⟨name, _ | ⟨sub, _ | ⟨other, names⟩⟩⟩
  · simp
  · by_cases h : isAttributeName name = true <;> simp [h]
  · by_cases h : (isAttributeName name && isAttributeName sub) = true
    · simp only [h, if_true, Except.ok.injEq, Prod.mk.injEq, Option.some.injEq]
    · simp [h]
  · simp

/-- A path that is read: what stands behind a URN, or a name, which a dot and another one may
follow. -/
inductive PathRead (cs : List Char) : AttributePath → List Char → Prop where
  | qualified {a : AttributePath} {rest : List Char}
      (hurn : beginsWith "urn:".toList (skipBlanks cs) = true)
      (hread : scanQualified (skipBlanks cs) = .ok (a, rest)) : PathRead cs a rest
  | dotted {name sub : String} {more rest : List Char}
      (hurn : beginsWith "urn:".toList (skipBlanks cs) = false)
      (hname : scanName (skipBlanks cs) = .ok (name, '.' :: more))
      (hsub : scanName more = .ok (sub, rest)) : PathRead cs ⟨none, name, some sub⟩ rest
  | named {name : String} {rest : List Char}
      (hurn : beginsWith "urn:".toList (skipBlanks cs) = false)
      (hname : scanName (skipBlanks cs) = .ok (name, rest)) (hdot : ∀ more, rest ≠ '.' :: more) :
      PathRead cs ⟨none, name, none⟩ rest

theorem scanPath_iff {cs rest : List Char} {a : AttributePath} :
    scanPath cs = .ok (a, rest) ↔ PathRead cs a rest := by
  constructor
  · intro h
    simp only [scanPath] at h
    split at h
    case isTrue hurn => exact .qualified hurn h
    case isFalse hurn =>
      rw [Bool.not_eq_true] at hurn
      obtain ⟨⟨name, more⟩, hname, h⟩ := bind_eq_ok.mp h
      dsimp only at h
      split at h
      case h_1 =>
        obtain ⟨⟨sub, last⟩, hsub, h⟩ := bind_eq_ok.mp h
        cases h
        exact .dotted hurn hname hsub
      case h_2 hdot =>
        cases h
        exact .named hurn hname hdot
  · rintro (⟨hurn, hread⟩ | ⟨hurn, hname, hsub⟩ | ⟨hurn, hname, hdot⟩)
    · simp only [scanPath, hurn, if_true, hread]
    · simp only [scanPath, hurn, Bool.false_eq_true, if_false, hname, hsub, bind, Except.bind]
    · simp only [scanPath, hurn, Bool.false_eq_true, if_false, hname, bind, Except.bind]

theorem scanOperator_iff {cs rest : List Char} {op : CompareOp} :
    scanOperator cs = .ok (op, rest) ↔
      CompareOp.ofWord? (String.ofList ((skipBlanks cs).takeWhile isLetter)) = some op ∧
        (skipBlanks cs).dropWhile isLetter = rest := by
  have hempty : CompareOp.ofWord? "" = none := by decide
  simp only [scanOperator]
  split
  case isTrue h =>
    rw [String.isEmpty_iff.mp h, hempty]
    simp
  case isFalse =>
    split
    case h_1 heq => simp [heq]
    case h_2 heq => simp [heq]

theorem scanNumber_iff {cs rest : List Char} {v : Literal} : scanNumber cs = .ok (v, rest) ↔
    ∃ d, numberOf? (numberToken cs).1 (numberToken cs).2 = some d ∧ .number d = v ∧
      cs.drop (numberToken cs).1.length = rest := by
  simp only [scanNumber]
  split
  case h_1 d hd => simp [hd]
  case h_2 hd => simp [hd]

/-- The value of a word where the word stands, and elsewhere what a reader reads. -/
def wordOr (word : String) (v : Literal) (scan : Scan Literal) : Scan Literal := fun cs =>
  match keyword? word cs with
  | some rest => .ok (v, rest)
  | none => scan cs

/-- A number, which is told by its first character. -/
def scanDigits : Scan Literal
  | c :: rest =>
    if isDigit c || c == '-' || c == '+' then scanNumber (c :: rest)
    else .error ⟨.valueExpected, c :: rest⟩
  | [] => .error ⟨.valueExpected, []⟩

/-- A value that is no quoted text: one of three words, or a number. -/
def scanBare : Scan Literal :=
  wordOr "true" (.bool true) (wordOr "false" (.bool false) (wordOr "null" .null scanDigits))

theorem scanLiteral_quoted {cs rest : List Char} (h : skipBlanks cs = '"' :: rest) :
    scanLiteral cs = (scanText rest).map fun r => (.text (String.ofList r.1), r.2) := by
  simp only [scanLiteral, h]

theorem scanLiteral_bare {cs : List Char} (h : (skipBlanks cs).head? ≠ some '"') :
    scanLiteral cs = scanBare (skipBlanks cs) := by
  unfold scanLiteral
  split
  case h_1 hquote => simp [hquote] at h
  case h_2 => rfl

theorem wordOr_iff {word : String} {v w : Literal} {scan : Scan Literal} {cs rest : List Char} :
    wordOr word v scan cs = .ok (w, rest) ↔
      keyword? word cs = some rest ∧ v = w ∨
        keyword? word cs = none ∧ scan cs = .ok (w, rest) := by
  unfold wordOr
  cases hword : keyword? word cs with
  | none => simp
  | some more => simp [and_comm]

theorem scanDigits_iff {cs rest : List Char} {v : Literal} : scanDigits cs = .ok (v, rest) ↔
    (∃ c ∈ cs.head?, (isDigit c || c == '-' || c == '+') = true) ∧
      scanNumber cs = .ok (v, rest) := by
  cases cs with
  | nil => simp [scanDigits]
  | cons c cs =>
    simp only [scanDigits]
    split
    case isTrue h => exact (and_iff_right ⟨c, rfl, h⟩).symm
    case isFalse h =>
      refine ⟨fun hread => (by cases hread), ?_⟩
      rintro ⟨⟨_, ⟨⟩, hc⟩, -⟩
      exact absurd hc h

/-- A value that is read: a quoted text, or another one. -/
inductive LiteralRead (cs : List Char) : Literal → List Char → Prop where
  | quoted {opened t rest : List Char} (hquote : skipBlanks cs = '"' :: opened)
      (hread : scanText opened = .ok (t, rest)) : LiteralRead cs (.text (String.ofList t)) rest
  | bare {v : Literal} {rest : List Char} (hquote : (skipBlanks cs).head? ≠ some '"')
      (hread : scanBare (skipBlanks cs) = .ok (v, rest)) : LiteralRead cs v rest

theorem scanLiteral_iff {cs rest : List Char} {v : Literal} :
    scanLiteral cs = .ok (v, rest) ↔ LiteralRead cs v rest := by
  constructor
  · intro h
    by_cases hquote : (skipBlanks cs).head? = some '"'
    · obtain ⟨opened, hopened⟩ := List.head?_eq_some_iff.mp hquote
      rw [scanLiteral_quoted hopened] at h
      obtain ⟨⟨t, more⟩, hr, h⟩ := map_eq_ok.mp h
      cases h
      exact .quoted hopened hr
    · rw [scanLiteral_bare hquote] at h
      exact .bare hquote h
  · rintro (⟨hquote, hread⟩ | ⟨hquote, hread⟩)
    · rw [scanLiteral_quoted hquote, hread]
      rfl
    · rw [scanLiteral_bare hquote, hread]

/-! ### Parts of trees -/

theorem scanName_gives : Gives scanName fun name => isAttributeName name.toList = true := by
  intro cs name rest h
  obtain ⟨c, more, -, hstart, rfl, -⟩ := scanName_iff.mp h
  simp [isAttributeName, hstart, List.all_takeWhile]

theorem splitLastColon_append {front tail : List Char} (h : ':' ∉ tail) :
    splitLastColon (front ++ ':' :: tail) = (front, tail) := by
  have htail : ((front ++ ':' :: tail).reverse.takeWhile (· != ':')).reverse = tail := by
    have hall : tail.reverse.all (· != ':') = true := by
      rw [List.all_eq_true]
      intro c hc
      rw [bne_iff_ne]
      rintro rfl
      exact h (List.mem_reverse.mp hc)
    rw [List.reverse_append, List.reverse_cons, List.append_assoc,
      takeWhile_append_stop hall (by rintro c ⟨⟩; rfl), List.reverse_reverse]
  have hlength : (front ++ ':' :: tail).length - tail.length - 1 = front.length := by
    simp only [List.length_append, List.length_cons]
    omega
  simp only [splitLastColon, htail, hlength, List.take_left]

theorem exists_lastColon {cs : List Char} (h : ':' ∈ cs) :
    ∃ front tail, cs = front ++ ':' :: tail ∧ ':' ∉ tail := by
  obtain ⟨back, front, hcs, hback⟩ := List.eq_append_cons_of_mem (List.mem_reverse.mpr h)
  refine ⟨front.reverse, back.reverse, ?_, by simpa using hback⟩
  rw [← List.reverse_reverse cs, hcs]
  simp

/-- A front of the text that ends with a colon is kept by what stands before the last colon. -/
theorem splitLastColon_front (front tail : List Char) :
    ∃ more, (splitLastColon (front ++ ':' :: tail)).1 ++ [':'] = front ++ ':' :: more ∧
      (splitLastColon (front ++ ':' :: tail)).1 ⊆ front ++ ':' :: tail := by
  by_cases h : ':' ∈ tail
  · obtain ⟨middle, last, rfl, hlast⟩ := exists_lastColon h
    rw [← List.cons_append, ← List.append_assoc, splitLastColon_append hlast]
    exact ⟨middle ++ [':'], by simp, List.subset_append_left ..⟩
  · rw [splitLastColon_append h]
    exact ⟨[], rfl, List.subset_append_left ..⟩

/-- The front of a URN is three letters and a colon. -/
theorem urn_front {cs : List Char} (h : beginsWith "urn:".toList cs = true) :
    ∃ scheme rest, cs = scheme ++ ':' :: rest ∧ scheme.all isLetter = true ∧
      scheme.map Char.toLower = "urn".toList := by
  obtain ⟨front, rest, rfl, hfront⟩ := beginsWith_iff.mp h
  have hparts : front.map Char.toLower = "urn".toList ++ [':'] := hfront
  obtain ⟨scheme, colon, rfl, hscheme, hcolon⟩ := List.map_eq_append_iff.mp hparts
  obtain ⟨c, cs, rfl, hc, hnil⟩ := List.map_eq_cons_iff.mp hcolon
  cases List.map_eq_nil_iff.mp hnil
  cases eq_of_toLower_eq hc rfl
  refine ⟨scheme, rest, by simp, List.all_eq_true.mpr fun c hc => ?_, hscheme⟩
  have hmem : c.toLower ∈ "urn".toList := hscheme ▸ List.mem_map_of_mem hc
  rw [← isLetter_toLower]
  exact List.all_eq_true.mp (show "urn".toList.all isLetter = true by decide) _ hmem

theorem scanQualified_wellFormed {cs rest : List Char} {a : AttributePath}
    (hurn : beginsWith "urn:".toList cs = true) (h : scanQualified cs = .ok (a, rest)) :
    a.WellFormed := by
  obtain ⟨scheme, more, rfl, hletters, hscheme⟩ := urn_front hurn
  have hqualified : (scheme ++ [':']).all isQualifiedChar = true := by
    rw [List.all_append, Bool.and_eq_true, List.all_eq_true]
    refine ⟨fun c hc => ?_, rfl⟩
    exact isQualifiedChar_of_isNameChar
      (isNameChar_of_isLetter (List.all_eq_true.mp hletters c hc))
  have htoken : (scheme ++ ':' :: more).takeWhile isQualifiedChar =
      scheme ++ ':' :: more.takeWhile isQualifiedChar := by
    rw [List.append_cons, List.takeWhile_append_of_pos (List.all_eq_true.mp hqualified),
      ← List.append_cons]
  -- the last colon is the one behind the scheme or a later one, so the scheme stays in front
  obtain ⟨after, hfront, hsubset⟩ :=
    splitLastColon_front scheme (more.takeWhile isQualifiedChar)
  have hall : (splitLastColon (scheme ++ ':' :: more.takeWhile isQualifiedChar)).1.all
      isQualifiedChar = true := by
    rw [List.all_eq_true]
    intro c hc
    exact List.all_eq_true.mp (htoken ▸ List.all_takeWhile) c (hsubset hc)
  have hbegins : beginsWith "urn:".toList
      ((splitLastColon (scheme ++ ':' :: more.takeWhile isQualifiedChar)).1 ++ [':']) = true := by
    rw [hfront]
    exact beginsWith_iff.mpr ⟨scheme ++ [':'], after, by simp, by simp [hscheme]⟩
  have hpath := (scanQualified_iff.mp h).1
  rw [htoken] at hpath
  simp only [qualifiedPath?] at hpath
  generalize splitLastColon (scheme ++ ':' :: more.takeWhile isQualifiedChar) = parts
    at hpath hall hbegins
  have hschema : ∀ urn ∈ some (String.ofList parts.1), urn.toList.all isQualifiedChar = true ∧
      beginsWith "urn:".toList (urn.toList ++ [':']) = true := by
    rintro urn ⟨⟩
    rw [String.toList_ofList]
    exact ⟨hall, hbegins⟩
  split at hpath
  · split_ifs at hpath with hname
    cases hpath
    exact ⟨by simpa using hname, by simp, hschema⟩
  · split_ifs at hpath with hnames
    cases hpath
    rw [Bool.and_eq_true] at hnames
    exact ⟨by simpa using hnames.1, by simpa using hnames.2, hschema⟩
  · cases hpath

theorem scanPath_gives : Gives scanPath AttributePath.WellFormed := by
  intro cs a rest h
  cases scanPath_iff.mp h with
  | qualified hurn hread => exact scanQualified_wellFormed hurn hread
  | dotted hurn hname hsub =>
    exact ⟨scanName_gives hname, by simpa using scanName_gives hsub, by simp⟩
  | named hurn hname => exact .ofName (scanName_gives hname)

theorem scanNumber_gives : Gives scanNumber Literal.WellFormed := by
  intro cs v rest h
  obtain ⟨d, hd, rfl, -⟩ := scanNumber_iff.mp h
  simp only [numberOf?] at hd
  split at hd
  · exact Decimal.parseScientific?_inRange hd
  · exact Decimal.parsePlain?_inRange hd

theorem Gives.wordOr {word : String} {v : Literal} {scan : Scan Literal} (hv : v.WellFormed)
    (h : Gives scan Literal.WellFormed) : Gives (wordOr word v scan) Literal.WellFormed := by
  intro cs w rest hread
  rcases wordOr_iff.mp hread with ⟨-, rfl⟩ | ⟨-, hread⟩
  · exact hv
  · exact h hread

theorem scanBare_gives : Gives scanBare Literal.WellFormed := by
  have hdigits : Gives scanDigits Literal.WellFormed :=
    fun _ _ _ h => scanNumber_gives (scanDigits_iff.mp h).2
  exact ((hdigits.wordOr (by trivial)).wordOr (by trivial)).wordOr (by trivial)

theorem scanLiteral_gives : Gives scanLiteral Literal.WellFormed := by
  intro cs v rest h
  cases scanLiteral_iff.mp h with
  | quoted => trivial
  | bare _ hread => exact scanBare_gives hread

/-! ### What the readers of operands read -/

/-- A test that is read: that there is a value, or a comparison. -/
inductive TestRead (a : AttributePath) : List Char → Filter → List Char → Prop where
  | present {cs rest : List Char} (hword : keyword? "pr" cs = some rest) :
      TestRead a cs (.present a) rest
  | compared {cs more rest : List Char} {op : CompareOp} {v : Literal}
      (hword : keyword? "pr" cs = none) (hop : scanOperator cs = .ok (op, more))
      (hv : scanLiteral more = .ok (v, rest)) : TestRead a cs (.compare a op v) rest

theorem scanTest_iff {a : AttributePath} {cs rest : List Char} {f : Filter} :
    scanTest a cs = .ok (f, rest) ↔ TestRead a cs f rest := by
  constructor
  · intro h
    simp only [scanTest] at h
    split at h
    case h_1 hword =>
      cases h
      exact .present hword
    case h_2 hword =>
      obtain ⟨⟨op, more⟩, hop, h⟩ := bind_eq_ok.mp h
      obtain ⟨⟨v, last⟩, hv, h⟩ := bind_eq_ok.mp h
      cases h
      exact .compared hword hop hv
  · rintro (hword | ⟨hword, hop, hv⟩)
    · simp only [scanTest, hword]
    · simp only [scanTest, hword, hop, hv, bind, Except.bind]

variable {nested : Scan Filter} {cs rest : List Char} {f : Filter}

theorem scanEnclosed_iff {close : Char} {fault : Malformed} :
    scanEnclosed nested close fault cs = .ok (f, rest) ↔
      ∃ more, nested cs = .ok (f, more) ∧ skipBlanks more = close :: rest := by
  constructor
  · intro h
    obtain ⟨⟨inner, more⟩, hinner, h⟩ := bind_eq_ok.mp h
    dsimp only at h
    split at h
    case h_2 => cases h
    case h_1 c last hskip =>
      split at h
      case isFalse => cases h
      case isTrue hc =>
        cases h
        exact ⟨more, hinner, beq_iff_eq.mp hc ▸ hskip⟩
  · rintro ⟨more, hinner, hskip⟩
    simp [scanEnclosed, hinner, hskip, bind, Except.bind]

/-- What stands behind the brackets of a selection: the test of one more name, or nothing that
adds to it. -/
def behindSelection (a : AttributePath) (f : Filter) : Scan Filter := fun cs =>
  match cs with
  | '.' :: rest => do
    let (name, rest) ← scanName rest
    let (test, rest) ← scanTest (.ofName name) rest
    .ok (.select a (.and f.groupedIfOr test), rest)
  | rest => .ok (.select a f, (keyword? "pr" rest).getD rest)

/-- What is read behind the brackets of a selection. -/
inductive SelectionRead (a : AttributePath) (f : Filter) : List Char → Filter → List Char → Prop
    where
  | dotted {cs more rest : List Char} {name : String} {test : Filter}
      (hname : scanName cs = .ok (name, more))
      (htest : scanTest (.ofName name) more = .ok (test, rest)) :
      SelectionRead a f ('.' :: cs) (.select a (.and f.groupedIfOr test)) rest
  | plain {cs : List Char} (hdot : ∀ more, cs ≠ '.' :: more) :
      SelectionRead a f cs (.select a f) ((keyword? "pr" cs).getD cs)

theorem behindSelection_iff {a : AttributePath} {g : Filter} :
    behindSelection a f cs = .ok (g, rest) ↔ SelectionRead a f cs g rest := by
  constructor
  · intro h
    unfold behindSelection at h
    split at h
    case h_1 =>
      obtain ⟨⟨name, more⟩, hname, h⟩ := bind_eq_ok.mp h
      obtain ⟨⟨test, last⟩, htest, h⟩ := bind_eq_ok.mp h
      cases h
      exact .dotted hname htest
    case h_2 hdot =>
      cases h
      exact .plain hdot
  · rintro (⟨hname, htest⟩ | hdot)
    · simp only [behindSelection, hname, htest, bind, Except.bind]
    · unfold behindSelection
      split
      case h_1 => exact absurd rfl (hdot _)
      case h_2 => rfl

/-- What is read at an attribute: the selection of one without a sub-attribute, or a test. -/
inductive AttributeRead (nested : Scan Filter) : List Char → Filter → List Char → Prop where
  | selected {cs opened behind rest : List Char} {a : AttributePath} {f g : Filter}
      (hpath : scanPath cs = .ok (a, '[' :: opened)) (hsub : a.sub = none)
      (hinner : scanEnclosed nested ']' .unclosedSelection opened = .ok (f, behind))
      (hbehind : behindSelection a f behind = .ok (g, rest)) : AttributeRead nested cs g rest
  | tested {cs more rest : List Char} {a : AttributePath} {f : Filter}
      (hpath : scanPath cs = .ok (a, more)) (hbracket : ∀ opened, more ≠ '[' :: opened)
      (htest : scanTest a more = .ok (f, rest)) : AttributeRead nested cs f rest

theorem scanAttribute_iff :
    scanAttribute nested cs = .ok (f, rest) ↔ AttributeRead nested cs f rest := by
  constructor
  · intro h
    obtain ⟨⟨a, more⟩, hpath, h⟩ := bind_eq_ok.mp h
    dsimp only at h
    split at h
    case h_1 =>
      obtain ⟨hsub, h⟩ := guard_eq_ok.mp h
      obtain ⟨⟨g, behind⟩, hinner, hbehind⟩ := bind_eq_ok.mp h
      exact .selected hpath (by simpa using hsub) hinner hbehind
    case h_2 hbracket => exact .tested hpath hbracket h
  · rintro (⟨hpath, hsub, hinner, hbehind⟩ | ⟨hpath, hbracket, htest⟩)
    · simp only [scanAttribute, hpath, hsub, hinner, bind, Except.bind]
      exact hbehind
    · simp only [scanAttribute, hpath, bind, Except.bind]
      exact htest

/-- What is read as an operand: a negation, a group, or what is read at an attribute. -/
inductive OperandRead (nested : Scan Filter) : List Char → Filter → List Char → Prop where
  | negated {cs more opened rest : List Char} {f : Filter}
      (hword : keyword? "not" cs = some more) (hopen : skipBlanks more = '(' :: opened)
      (hinner : scanEnclosed nested ')' .unclosedNot opened = .ok (f, rest)) :
      OperandRead nested cs (.not f) rest
  | grouped {cs opened rest : List Char} {f : Filter} (hword : keyword? "not" cs = none)
      (hopen : skipBlanks cs = '(' :: opened)
      (hinner : scanEnclosed nested ')' .unclosedGroup opened = .ok (f, rest)) :
      OperandRead nested cs (.group f) rest
  | atPath {cs rest : List Char} {f : Filter} (hword : keyword? "not" cs = none)
      (hopen : ∀ opened, skipBlanks cs ≠ '(' :: opened)
      (hread : scanAttribute nested (skipBlanks cs) = .ok (f, rest)) : OperandRead nested cs f rest

theorem scanOperand_iff :
    scanOperand nested cs = .ok (f, rest) ↔ OperandRead nested cs f rest := by
  constructor
  · intro h
    simp only [scanOperand] at h
    split at h
    case h_1 hword =>
      split at h
      case h_2 => cases h
      case h_1 hopen =>
        obtain ⟨⟨inner, more⟩, hinner, h⟩ := map_eq_ok.mp h
        cases h
        exact .negated hword hopen hinner
    case h_2 hword =>
      split at h
      case h_2 hopen => exact .atPath hword hopen h
      case h_1 hopen =>
        obtain ⟨⟨inner, more⟩, hinner, h⟩ := map_eq_ok.mp h
        cases h
        exact .grouped hword hopen hinner
  · rintro (⟨hword, hopen, hinner⟩ | ⟨hword, hopen, hinner⟩ | ⟨hword, hopen, hread⟩)
    · simp only [scanOperand, hword, hopen, hinner, Except.map]
    · simp only [scanOperand, hword, hopen, hinner, Except.map]
    · simp only [scanOperand, hword]
      exact hread

/-! ### Trees that reading gives -/

theorem scanTest_gives {a : AttributePath} (ha : a.WellFormed) :
    Gives (scanTest a) fun f => f.WellFormed ∧ f.isOperand = true := by
  intro cs f rest h
  cases scanTest_iff.mp h with
  | present => exact ⟨ha, rfl⟩
  | compared hword hop hv => exact ⟨⟨ha, scanLiteral_gives hv⟩, rfl⟩

theorem scanEnclosed_gives {p : Filter → Prop} {close : Char} {fault : Malformed}
    (hn : Gives nested p) : Gives (scanEnclosed nested close fault) p := by
  intro cs f rest h
  obtain ⟨more, hinner, -⟩ := scanEnclosed_iff.mp h
  exact hn hinner

theorem scanAttribute_gives (hn : Gives nested WellFormed) :
    Gives (scanAttribute nested) fun f => f.WellFormed ∧ f.isOperand = true := by
  intro cs f rest h
  cases scanAttribute_iff.mp h with
  | tested hpath hbracket htest => exact scanTest_gives (scanPath_gives hpath) htest
  | selected hpath hsub hinner hbehind =>
    have ha := scanPath_gives hpath
    have hi := scanEnclosed_gives hn hinner
    cases behindSelection_iff.mp hbehind with
    | plain hdot => exact ⟨⟨ha, hsub, hi⟩, rfl⟩
    | dotted hname htest =>
      have ht := scanTest_gives (.ofName (scanName_gives hname)) htest
      exact ⟨⟨ha, hsub, isOr_groupedIfOr _, ht.2, hi.groupedIfOr, ht.1⟩, rfl⟩

theorem scanOperand_gives (hn : Gives nested WellFormed) :
    Gives (scanOperand nested) fun f => f.WellFormed ∧ f.isOperand = true := by
  intro cs f rest h
  cases scanOperand_iff.mp h with
  | negated hword hopen hinner => exact ⟨(scanEnclosed_gives hn hinner : WellFormed _), rfl⟩
  | grouped hword hopen hinner => exact ⟨(scanEnclosed_gives hn hinner : WellFormed _), rfl⟩
  | atPath hword hopen hread => exact scanAttribute_gives hn hread

/-- A chain keeps what a join with one more operand keeps. -/
theorem scanChain_keeps {word : String} {join : Filter → Filter → Filter} {operand : Scan Filter}
    {p : Filter → List Char → Prop}
    (hstep : ∀ ⦃left right cs more rest⦄, keyword? word cs = some more →
      operand more = .ok (right, rest) → p left cs → p (join left right) rest)
    {fuel : Nat} {left f : Filter} {cs rest : List Char} (hleft : p left cs)
    (h : scanChain word join operand fuel left cs = .ok (f, rest)) : p f rest := by
  induction fuel generalizing left cs with
  | zero =>
    cases h
    exact hleft
  | succ fuel ih =>
    simp only [scanChain] at h
    split at h
    case h_1 hword =>
      obtain ⟨⟨right, more⟩, hright, h⟩ := bind_eq_ok.mp h
      exact ih (hstep hword hright hleft) h
    case h_2 =>
      cases h
      exact hleft

theorem scanChain_gives {word : String} {join : Filter → Filter → Filter} {operand : Scan Filter}
    {p q : Filter → Prop} (hoperand : Gives operand q) (hjoin : ∀ f g, p f → q g → p (join f g))
    {fuel : Nat} {left : Filter} (hleft : p left) :
    Gives (scanChain word join operand fuel left) p := by
  intro cs f rest h
  refine scanChain_keeps (p := fun f _ => p f) ?_ hleft h
  intro left right cs more rest _ hright hp
  exact hjoin _ _ hp (hoperand hright)

theorem scanJoined_gives {word : String} {join : Filter → Filter → Filter} {operand : Scan Filter}
    {p q : Filter → Prop} (hoperand : Gives operand q) (hqp : ∀ f, q f → p f)
    (hjoin : ∀ f g, p f → q g → p (join f g)) : Gives (scanJoined word join operand) p := by
  intro cs f rest h
  obtain ⟨⟨left, more⟩, hleft, h⟩ := bind_eq_ok.mp h
  exact scanChain_gives hoperand hjoin (hqp _ (hoperand hleft)) h

theorem scanWithin_gives (depth : Nat) : Gives (scanWithin depth) WellFormed := by
  induction depth with
  | zero =>
    intro cs f rest h
    cases h
  | succ depth ih =>
    have hand : Gives (scanJoined "and" .and (scanOperand (scanWithin depth)))
        fun f => f.WellFormed ∧ f.isOr = false :=
      scanJoined_gives (scanOperand_gives ih) (fun f hf => ⟨hf.1, isOr_of_isOperand hf.2⟩)
        fun f g hf hg => ⟨⟨hf.2, hg.2, hf.1, hg.1⟩, rfl⟩
    exact scanJoined_gives hand (fun f hf => hf.1) fun f g hf hg => ⟨hg.2, hf, hg.1⟩

/-! ### Whole texts -/

/-- A text that is read is within the limit of length, and read to its end. -/
theorem parse_eq_ok {text : String} : parse text = .ok f ↔
    utf8Length text.toList ≤ greatestLength ∧
      ∃ rest, scanWithin (greatestDepth + 1) text.toList = .ok (f, rest) ∧
        skipBlanks rest = [] := by
  simp only [parse, guard_eq_ok, Nat.not_lt, scanAll]
  refine and_congr_right fun _ => ?_
  cases hscan : scanWithin (greatestDepth + 1) text.toList with
  | error fault => simp [bind, Except.bind]
  | ok result =>
    obtain ⟨g, rest⟩ := result
    simp only [bind, Except.bind, Except.ok.injEq, Prod.mk.injEq]
    cases hrest : skipBlanks rest with
    | nil =>
      constructor
      · rintro ⟨⟩
        exact ⟨rest, ⟨rfl, rfl⟩, hrest⟩
      · rintro ⟨_, ⟨rfl, rfl⟩, -⟩
        rfl
    | cons c cs =>
      constructor
      · rintro ⟨⟩
      · rintro ⟨_, ⟨-, rfl⟩, hnil⟩
        rw [hrest] at hnil
        cases hnil

theorem parse_wellFormed {text : String} {f : Filter} (h : parse text = .ok f) : f.WellFormed := by
  obtain ⟨-, rest, hscan, -⟩ := parse_eq_ok.mp h
  exact scanWithin_gives _ hscan

end Filter

end Roster
