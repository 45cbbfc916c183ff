import Mathlib.Data.List.Forall2
import Roster.Proofs.Expression.Named
import Roster.Proofs.Json
import Roster.Proofs.Query.Bracketed
import Roster.Proofs.Query.Complement
import Roster.Proofs.Text.Sigma

/-!
Comparisons of texts under two schemas, of which the second ignores case where the first may be
exact about it. What a comparison is read and compiled to differs in nothing else. So every match is
kept, unless the literal has a capital sigma where its lower case depends on the next letter.
-/

namespace Roster

/-! ### Schemas that ignore case -/

/-- An attribute, and the same attribute that ignores case where the first may be exact about it, in
itself or in its sub-attributes. -/
inductive Attribute.Relaxes : Attribute → Attribute → Prop where
  | intro {a : Attribute} {caseExact : Option Bool} {subAttributes : List Attribute}
      (hexact : caseExact.getD false = true → a.caseExact.getD false = true)
      (hsubs : List.Forall₂ Relaxes a.subAttributes subAttributes) :
    Relaxes a { a with caseExact, subAttributes }

theorem Attribute.Relaxes.refl : (a : Attribute) → a.Relaxes a
  | ⟨name, type, multiValued, description, required, caseExact, mutability, returned, uniqueness,
      subAttributes⟩ =>
    .intro (a := ⟨name, type, multiValued, description, required, caseExact, mutability, returned,
      uniqueness, subAttributes⟩) id (List.forall₂_same.mpr fun s _ => refl s)

/-- An extension, and the same extension with attributes that ignore case. -/
inductive Extension.Relaxes : Extension → Extension → Prop where
  | intro {e : Extension} {attributes : List Attribute}
      (h : List.Forall₂ Attribute.Relaxes e.schema.attributes attributes) :
    Relaxes e { e with schema := { e.schema with attributes } }

/-- A registry, and the same registry with attributes that ignore case. -/
def Registry.Relaxes (r r' : Registry) : Prop :=
  List.Forall₂ Extension.Relaxes r.extensions r'.extensions

/-- What is found first in one list is related to what is found first in the other, if the tests
agree on related items. -/
theorem find?_forall₂ {α β : Type} {R : α → β → Prop} {p : α → Bool} {q : β → Bool} {as : List α}
    {bs : List β} (h : List.Forall₂ R as bs) (hpq : ∀ a b, R a b → p a = q b) :
    Option.Rel R (as.find? p) (bs.find? q) := by
  induction h with
  | nil => exact .none
  | @cons x y as bs hxy _ ih =>
    rw [List.find?_cons, List.find?_cons, ← hpq x y hxy]
    cases p x with
    | true => exact .some hxy
    | false => exact ih

theorem exists_related {α β : Type} {R : α → β → Prop} {x : Option α} {y : Option β} {a : α}
    (h : Option.Rel R x y) (hx : x = some a) : ∃ b, y = some b ∧ R a b := by
  subst hx
  cases h with
  | some hab => exact ⟨_, rfl, hab⟩

namespace Registry.Relaxes

variable {r r' : Registry}

theorem isKnownExtension (h : r.Relaxes r') (urn : String) :
    r'.isKnownExtension urn = r.isKnownExtension urn := by
  obtain ⟨es⟩ := r
  obtain ⟨es'⟩ := r'
  have hes : List.Forall₂ Extension.Relaxes es es' := h
  simp only [Registry.isKnownExtension]
  clear h
  induction hes with
  | nil => rfl
  | cons hxy _ ih =>
    cases hxy
    rw [List.any_cons, List.any_cons, ih]

theorem extension? (h : r.Relaxes r') {kind : Kind} {urn : String} {s : Schema}
    (hs : r.extension? kind urn = some s) : ∃ attributes,
      List.Forall₂ Attribute.Relaxes s.attributes attributes ∧
        r'.extension? kind urn = some { s with attributes } := by
  obtain ⟨e, he, rfl⟩ := Option.map_eq_some_iff.mp hs
  have hfound : Option.Rel Extension.Relaxes
      (r.extensions.find? fun e => e.kind == kind && sameName e.schema.id urn)
      (r'.extensions.find? fun e => e.kind == kind && sameName e.schema.id urn) :=
    find?_forall₂ h fun x y hxy => by cases hxy; rfl
  obtain ⟨e', he', hrelaxes⟩ := exists_related hfound he
  cases hrelaxes with
  | intro hattributes => exact ⟨_, hattributes, Option.map_eq_some_iff.mpr ⟨_, he', rfl⟩⟩

end Registry.Relaxes

/-! ### Reading -/

namespace Expression

variable {r r' : Registry} (h : ∀ urn, r'.isKnownExtension urn = r.isKnownExtension urn)
include h

theorem schemaOf_congr (text : List Char) : schemaOf r' text = schemaOf r text := by
  have hsplit (head : List Char) (stops : List Nat) :
      splitAtSchema r' text head stops = splitAtSchema r text head stops := by
    induction stops with
    | nil => rfl
    | cons stop stops ih => simp only [splitAtSchema, h, ih]
  rw [schemaOf_eq, schemaOf_eq, hsplit]

theorem attributePath_congr (text : List Char) : attributePath r' text = attributePath r text := by
  simp only [attributePath, schemaOf_congr h]

/-- What is read from a text depends on which extensions are known, and on nothing else of them. -/
theorem parse_congr (text : String) : parse r' text = parse r text := by
  simp only [parse, parseTrimmed, attributePath_congr h]

end Expression

/-! ### Compiling -/

/-- Scopes with the same attributes, of which those of the second may ignore case. -/
inductive Scope.Relaxes : Scope → Scope → Prop where
  | resource : Relaxes .resource .resource
  | members {as bs : List Attribute} (h : List.Forall₂ Attribute.Relaxes as bs) :
    Relaxes (.members as) (.members bs)

theorem findAttribute?_relaxes {as bs : List Attribute} (h : List.Forall₂ Attribute.Relaxes as bs)
    (name : String) :
    Option.Rel Attribute.Relaxes (findAttribute? as name) (findAttribute? bs name) :=
  find?_forall₂ h fun x y hxy => by cases hxy; rfl

theorem Scope.Relaxes.find? {scope scope' : Scope} (h : scope.Relaxes scope') {kind : Kind}
    {name : String} {a : Attribute} (ha : scope.find? kind name = some a) :
    ∃ b, scope'.find? kind name = some b ∧ a.Relaxes b := by
  cases h with
  | resource => exact ⟨a, ha, .refl a⟩
  | members h => exact exists_related (findAttribute?_relaxes h name) ha

/-- An attribute found, and the same one that may ignore case. -/
structure Resolved.Relaxes (x y : Resolved) : Prop where
  keys : y.keys = x.keys
  type : y.traits.type = x.traits.type
  multiValued : y.traits.multiValued = x.traits.multiValued
  caseExact : y.traits.caseExact = true → x.traits.caseExact = true
  subAttributes : List.Forall₂ Attribute.Relaxes x.subAttributes y.subAttributes

theorem Attribute.Relaxes.resolved {a b : Attribute} (h : a.Relaxes b) (keys : List String) :
    (⟨keys ++ [a.name], a.traits, a.subAttributes⟩ : Resolved).Relaxes
      ⟨keys ++ [b.name], b.traits, b.subAttributes⟩ := by
  cases h with
  | intro hexact hsubs => exact ⟨rfl, rfl, rfl, hexact, hsubs⟩

theorem Resolved.Relaxes.compared {x y : Resolved} (h : x.Relaxes y) :
    x.compared.Relaxes y.compared := by
  rw [Resolved.compared, Resolved.compared, h.type, h.multiValued]
  split
  case isTrue =>
    have hvalue := findAttribute?_relaxes h.subAttributes "value"
    generalize findAttribute? x.subAttributes "value" = v at hvalue
    generalize findAttribute? y.subAttributes "value" = w at hvalue
    cases hvalue with
    | none => exact h
    | some hvw =>
      dsimp only
      rw [h.keys]
      exact hvw.resolved x.keys
  case isFalse => exact h

variable {r r' : Registry} {kind : Kind} {scope scope' : Scope} {a : AttributePath}

theorem AttributePath.resolve_relaxes (hr : r.Relaxes r') (h : scope.Relaxes scope')
    {x : Resolved} (hx : a.resolve r kind scope = .ok x) :
    ∃ y, a.resolve r' kind scope' = .ok y ∧ x.Relaxes y := by
  obtain ⟨front, inside, hplace, hreach⟩ := resolve_eq_ok.mp hx
  obtain ⟨inside', hplace', hinside⟩ : ∃ inside',
      scope'.qualified? r' kind a.schema = some (front, inside') ∧ inside.Relaxes inside' := by
    cases hschema : a.schema with
    | none =>
      rw [hschema] at hplace
      cases hplace
      exact ⟨scope', rfl, h⟩
    | some urn =>
      rw [hschema] at hplace
      cases h with
      | members _ => cases hplace
      | resource =>
        simp only [Scope.qualified?] at hplace ⊢
        split at hplace
        case isTrue hcore =>
          cases hplace
          exact ⟨.resource, if_pos hcore, .resource⟩
        case isFalse hcore =>
          obtain ⟨s, hs, hplace⟩ := Option.map_eq_some_iff.mp hplace
          cases hplace
          obtain ⟨attributes, hattributes, hs'⟩ := hr.extension? hs
          exact ⟨.members attributes, by rw [if_neg hcore, hs']; rfl, .members hattributes⟩
  cases hsub : a.sub with
  | none =>
    obtain ⟨top, htop, rfl⟩ := (reach_name hsub).mp hreach
    obtain ⟨top', htop', hrelaxes⟩ := hinside.find? htop
    exact ⟨_, resolve_eq_ok.mpr ⟨front, inside', hplace', (reach_name hsub).mpr ⟨top', htop', rfl⟩⟩,
      hrelaxes.resolved front⟩
  | some sub =>
    obtain ⟨top, s, htop, hs, rfl⟩ := (reach_dotted hsub).mp hreach
    obtain ⟨top', htop', hrelaxes⟩ := hinside.find? htop
    cases hrelaxes with
    | intro _ hsubs =>
      obtain ⟨s', hs', hsub'⟩ := exists_related (findAttribute?_relaxes hsubs sub) hs
      refine ⟨_, resolve_eq_ok.mpr ⟨front, inside', hplace',
        (reach_dotted hsub).mpr ⟨_, s', htop', hs', rfl⟩⟩, ?_⟩
      have hresolved := hsub'.resolved (front ++ [top.name])
      rwa [List.append_assoc, List.append_assoc] at hresolved

/-- A comparison, by itself or inside selections, and the same one that ignores case where the first
may be exact about it. -/
inductive Condition.Relaxes (op : CompareOp) (literal : TypedValue) (exact loose : Bool) :
    Condition → Condition → Prop where
  | compare {keys : List String} :
    Relaxes op literal exact loose (.compare keys op literal exact)
      (.compare keys op literal loose)
  | any {keys : List String} {c d : Condition} (h : Relaxes op literal exact loose c d) :
    Relaxes op literal exact loose (.any keys c) (.any keys d)

variable {op : CompareOp} {v : Literal} {literal : TypedValue} {exact loose : Bool}
variable {c d : Condition}

theorem compileComparison_relaxes (hr : r.Relaxes r') (h : scope.Relaxes scope')
    (hc : compileComparison r kind scope a op v = .ok c) :
    ∃ d type literal exact loose, compileComparison r' kind scope' a op v = .ok d ∧
      v.typed op type = .ok literal ∧ (loose = true → exact = true) ∧
        c.Relaxes op literal exact loose d := by
  obtain ⟨x, literal, hx, hsupports, hliteral, rfl⟩ := compileComparison_eq_ok.mp hc
  obtain ⟨y, hy, hrelaxes⟩ := AttributePath.resolve_relaxes hr h hx
  have hcompared := hrelaxes.compared
  refine ⟨_, x.compared.traits.type, literal, x.compared.traits.caseExact,
    y.compared.traits.caseExact, compileComparison_eq_ok.mpr ⟨y, literal, hy, ?_, ?_, rfl⟩,
    hliteral, hcompared.caseExact, ?_⟩
  · rwa [hcompared.type]
  · rwa [hcompared.type]
  · rw [hcompared.keys]
    exact .compare

namespace Expression

theorem Compares.relaxes {f : CompareOp → Filter} (hf : Compares v f) (hr : r.Relaxes r')
    (h : scope.Relaxes scope') (hc : (f op).compile r kind scope = .ok c) :
    ∃ d type literal exact loose, (f op).compile r' kind scope' = .ok d ∧
      v.typed op type = .ok literal ∧ (loose = true → exact = true) ∧
        c.Relaxes op literal exact loose d := by
  cases hf with
  | compare _ => exact compileComparison_relaxes hr h hc
  | select _ _ _ =>
    obtain ⟨owner, inner, howner, htype, hinner, rfl⟩ := Filter.compile_select.mp hc
    obtain ⟨owner', howner', hrelaxes⟩ := AttributePath.resolve_relaxes hr h howner
    obtain ⟨d, type, literal, exact, loose, hd, hliteral, hexact, hcd⟩ :=
      compileComparison_relaxes hr (.members hrelaxes.subAttributes) hinner
    refine ⟨.any owner.keys d, type, literal, exact, loose, Filter.compile_select.mpr
      ⟨owner', d, howner', hrelaxes.type.trans htype, hd, ?_⟩, hliteral, hexact, .any hcd⟩
    rw [hrelaxes.keys]

end Expression

/-- The same step with another filter. -/
def Step.refiltered (c : Condition) : Step → Step
  | .extension urn => .extension urn
  | .attribute name _ => .attribute name (some c)
  | .test _ => .test c

/-- Steps with names alone are the same under both schemas. -/
theorem compilesTo_relaxes (hr : r.Relaxes r') (h : scope.Relaxes scope')
    {segments : List Segment} {steps : List Step} {next : Scope}
    (hnames : ∀ s ∈ segments, ∃ name, s = .name name)
    (hsteps : CompilesTo r kind scope segments steps next) :
    (∀ s ∈ steps, s.filter? = none) ∧
      ∃ next', CompilesTo r' kind scope' segments steps next' ∧ next.Relaxes next' := by
  induction hsteps generalizing scope' with
  | nil => exact ⟨by simp, scope', .nil, h⟩
  | cons hstep _ ih =>
    obtain ⟨⟨name, rfl⟩, hrest⟩ := List.forall_mem_cons.mp hnames
    cases hstep with
    | extension hurn hext =>
      obtain ⟨attributes, hattributes, hext'⟩ := hr.extension? hext
      have hstep' : Segment.Compiles r' kind scope' _ _ _ := .extension hurn hext'
      obtain ⟨hnone, next', hnext', hrelaxes⟩ := ih (.members hattributes) hrest
      exact ⟨List.forall_mem_cons.mpr ⟨rfl, hnone⟩, next', .cons hstep' hnext', hrelaxes⟩
    | name hurn hfind =>
      obtain ⟨b, hb, hab⟩ := h.find? hfind
      have hstep' := Segment.Compiles.name (r := r') hurn hb
      cases hab with
      | intro _ hsubs =>
        obtain ⟨hnone, next', hnext', hrelaxes⟩ := ih (.members hsubs) hrest
        exact ⟨List.forall_mem_cons.mpr ⟨rfl, hnone⟩, next', .cons hstep' hnext', hrelaxes⟩

namespace Expression

/-- The filter at the end is compiled under both schemas to filters of the same step. -/
theorem Ending.relaxes {ending : String → Segment} {f : CompareOp → Filter} {s : Step}
    {last : Scope} (hending : Ending ending) (hf : Compares v f) (hv : v.WellFormed)
    (hr : r.Relaxes r') (h : scope.Relaxes scope')
    (hs : (ending (f op).toText).Compiles r kind scope s last) :
    ∃ c d type literal exact loose last', s.filter? = some c ∧
      (ending (f op).toText).Compiles r' kind scope' (s.refiltered d) last' ∧
        v.typed op type = .ok literal ∧ (loose = true → exact = true) ∧
          c.Relaxes op literal exact loose d := by
  cases hending with
  | test =>
    cases hs with
    | test hread hc =>
      obtain ⟨-, -, rfl⟩ := (Filter.parse_toText (hf.wellFormed hv op)).mp hread
      obtain ⟨d, type, literal, exact, loose, hd, hliteral, hexact, hcd⟩ := hf.relaxes hr h hc
      exact ⟨_, d, type, literal, exact, loose, scope', rfl, .test hread hd, hliteral, hexact, hcd⟩
  | selection =>
    cases hs with
    | selection hfind htype hread hc =>
      obtain ⟨-, -, rfl⟩ := (Filter.parse_toText (hf.wellFormed hv op)).mp hread
      obtain ⟨b, hb, hab⟩ := h.find? hfind
      cases hab with
      | intro _ hsubs =>
        obtain ⟨d, type, literal, exact, loose, hd, hliteral, hexact, hcd⟩ :=
          hf.relaxes hr (.members hsubs) hc
        have hs' := Segment.Compiles.selection hb htype hread hd
        exact ⟨_, d, type, literal, exact, loose, _, rfl, hs', hliteral, hexact, hcd⟩

end Expression

/-! ### Matches of one value -/

theorem Literal.typed_text {t : String} {type : AttributeType}
    (h : (Literal.text t).typed op type = .ok literal) :
    literal = .text t ∨ ∃ i, literal = .dateTime i := by
  cases type <;> simp only [Literal.typed] at h <;> try cases h
  case dateTime =>
    split at h <;> cases h
    exact .inr ⟨_, rfl⟩
  all_goals exact .inl rfl

/-- The operators that look for the literal in a text. -/
def CompareOp.isSearch (op : CompareOp) : Bool := op == .eq || op.isSubstring

/-- A value keeps its match when case is ignored, but for texts that lose matches. -/
theorem TypedValue.test_relaxed {t : String} (hop : op.isSearch = true)
    (hliteral : literal = .text t ∨ ∃ i, literal = .dateTime i)
    (hkeeps : op.losesCase t.toList = false) {w : Json} (h : literal.test op true w = true) :
    literal.test op false w = true := by
  rcases hliteral with rfl | ⟨i, rfl⟩
  case inr =>
    cases hpart : op.isSubstring with
    | true => simp [test, hpart] at h
    | false =>
      simp only [test, hpart, Bool.false_eq_true, if_false] at h ⊢
      exact h
  case inl =>
    cases hw : w.string? with
    | none => simp [test, orderFrom?, hw] at h
    | some s =>
      cases hpart : op.isSubstring with
      | true =>
        simp only [test, hpart, if_true, hw, comparedText] at h ⊢
        exact (CompareOp.matchesPart_lowercase hpart).mpr hkeeps _ h
      | false =>
        obtain rfl : op = .eq := by simpa [CompareOp.isSearch, hpart] using hop
        simp only [test, hpart, Bool.false_eq_true, if_false, orderFrom?, hw, Option.map_some,
          Option.any_some, CompareOp.admits_eq_orderText, comparedText, if_true] at h ⊢
        rw [h]

/-- A text that loses matches loses some value. -/
theorem TypedValue.test_lost {t : String} (hloses : op.losesCase t.toList = true) :
    ∃ s : String, (TypedValue.text t).test op true (.str s) = true ∧
      (TypedValue.text t).test op false (.str s) = false := by
  have hpart : op.isSubstring = true := by
    cases op <;> first | rfl | cases hloses
  by_contra hnone
  have hkeeps : op.losesCase t.toList = false := by
    refine (CompareOp.matchesPart_lowercase hpart).mp fun s hs => ?_
    by_contra hnot
    refine hnone ⟨String.ofList s, ?_, ?_⟩
    · simpa [test, hpart, Json.string?, comparedText] using hs
    · simpa [test, hpart, Json.string?, comparedText] using hnot
  rw [hloses] at hkeeps
  cases hkeeps

/-! ### Matches of resources -/

/-- A value that is no list, so that it is not opened. -/
structure Json.IsSingle (v : Json) : Prop where
  eq : v.flatten = [v]

/-- A value behind names. -/
def Json.behind (v : Json) : List String → Json
  | [] => v
  | key :: keys => .obj [(key, v.behind keys)]

theorem Json.IsSingle.behind {v : Json} (h : v.IsSingle) : (keys : List String) →
    (v.behind keys).IsSingle
  | [] => h
  | _ :: _ => ⟨rfl⟩

theorem Json.member?_single (key : String) (v : Json) :
    (Json.obj [(key, v)]).member? key = some v :=
  Json.member?_of_get? (by simp [Json.get?, Json.members?, Members.get?])

theorem Json.collect_behind_names {v : Json} (h : v.IsSingle) (keys : List String) :
    Json.collect [v.behind keys] keys = [v] := by
  induction keys with
  | nil => rfl
  | cons key keys ih =>
    rw [behind, collect]
    simpa [member?_single, (h.behind keys).eq] using ih

namespace Condition.Relaxes

theorem core (h : c.Relaxes op literal exact loose d) : ∃ keys,
    c.core = .compare keys op literal exact ∧ d.core = .compare keys op literal loose := by
  induction h with
  | @compare keys => exact ⟨keys, rfl, rfl⟩
  | any _ ih => exact ih

/-- Where no value loses its match, the second condition holds of what the first holds of. -/
theorem holds (h : c.Relaxes op literal exact loose d) (hop : op.isSearch = true)
    (hliteral : literal ≠ .null)
    (hkeeps : ∀ w, literal.test op exact w = true → literal.test op loose w = true) {w : Json}
    (hw : c.holds w = true) : d.holds w = true := by
  have hne : op ≠ .ne := by
    rintro rfl
    cases hop
  induction h generalizing w with
  | compare =>
    simp only [Condition.holds, compareAny_exists hne hliteral] at hw ⊢
    obtain ⟨x, hx, htest⟩ := List.any_eq_true.mp hw
    exact List.any_eq_true.mpr ⟨x, hx, hkeeps x htest⟩
  | any _ ih =>
    simp only [Condition.holds] at hw ⊢
    obtain ⟨x, hx, hinner⟩ := List.any_eq_true.mp hw
    exact List.any_eq_true.mpr ⟨x, hx, ih hinner⟩

/-- Some value has a given text where the conditions look for one. -/
theorem exists_value (h : c.Relaxes op literal exact loose d) (hop : op.isSearch = true)
    (hliteral : literal ≠ .null) (s : String) : ∃ w : Json, w.IsSingle ∧
      c.holds w = literal.test op exact (.str s) ∧ d.holds w = literal.test op loose (.str s) := by
  have hne : op ≠ .ne := by
    rintro rfl
    cases hop
  induction h with
  | @compare keys =>
    have hsingle : (Json.str s).IsSingle := ⟨rfl⟩
    refine ⟨_, hsingle.behind keys, ?_⟩
    simp [Condition.holds, Json.collect_behind_names hsingle, compareAny_exists hne hliteral]
  | @any keys _ _ _ ih =>
    obtain ⟨w, hw, hc, hd⟩ := ih
    refine ⟨_, hw.behind keys, ?_⟩
    simp [Condition.holds, Json.collect_behind_names hw, hc, hd]

end Condition.Relaxes

namespace Step

theorem filter?_refiltered {s : Step} (hs : s.filter? = some c) :
    (s.refiltered d).filter? = some d := by
  cases s <;> first | rfl | cases hs

theorem reached_refiltered (s : Step) (values : List Json) :
    (s.refiltered d).reached values = s.reached values := by
  cases s <;> rfl

theorem advance_unfiltered {s : Step} (hs : s.filter? = none) (values : List Json) :
    s.advance values = s.reached values := by
  cases s with
  | extension urn => rfl
  | «attribute» name filter =>
    cases hs
    rfl
  | test filter => cases hs

/-- A value from which a step reaches a given one. -/
theorem exists_reached (s : Step) {w : Json} (hw : w.IsSingle) :
    ∃ v : Json, v.IsSingle ∧ s.reached [v] = [w] := by
  cases s with
  | extension urn => exact ⟨.obj [(urn, w)], ⟨rfl⟩, by simp [reached, Json.member?_single]⟩
  | «attribute» name _ =>
    exact ⟨.obj [(name, w)], ⟨rfl⟩, by simp [reached, Json.member?_single, hw.eq]⟩
  | test _ => exact ⟨w, hw, rfl⟩

theorem exists_advanced {front : List Step} (hnone : ∀ s ∈ front, s.filter? = none) {w : Json}
    (hw : w.IsSingle) : ∃ v : Json, v.IsSingle ∧ front.foldl advance [v] = [w] := by
  induction front with
  | nil => exact ⟨w, hw, rfl⟩
  | cons s front ih =>
    obtain ⟨hs, hfront⟩ := List.forall_mem_cons.mp hnone
    obtain ⟨v, hv, hadvanced⟩ := ih hfront
    obtain ⟨u, hu, hreached⟩ := s.exists_reached hv
    exact ⟨u, hu, by rw [List.foldl_cons, advance_unfiltered hs, hreached, hadvanced]⟩

end Step

/-- A query with a filter at its end holds if the filter does of a value that the query reaches. -/
theorem Query.holds_snoc {q : Query} {front : List Step} {s : Step}
    (hsteps : q.steps = front ++ [s]) (hs : s.filter? = some c) (resource : Json) :
    q.holds resource = (s.reached (front.foldl Step.advance [resource])).any c.holds := by
  rw [Query.holds, Query.select, hsteps, List.foldl_append, List.foldl_cons, List.foldl_nil,
    Step.advance_filter hs, Bool.eq_iff_iff]
  simp

namespace Expression

open Filter (comparisonText scanLiteral)

variable {value t : String} {e : Expression} {q : Query}

/-- Where a search for a text is read and compiled, so it is under a schema that ignores case more
often. All its matches are kept, unless the text loses matches. And if it does, and the search was
exact about case and is no more, then some resource is lost. -/
theorem compile_relaxes (hr : r.Relaxes r') (ha : Spelled a)
    (hv : scanLiteral value.toList = .ok (.text t, [])) (hop : op.isSearch = true)
    (hread : parse r (comparisonText a.toText op value) = .ok e)
    (hcompile : e.compile r kind = .ok q) :
    ∃ q', parse r' (comparisonText a.toText op value) = .ok e ∧ e.compile r' kind = .ok q' ∧
      (op.losesCase t.toList = false →
        ∀ resource, q.holds resource = true → q'.holds resource = true) ∧
      (∀ keys, q.core? = some (.compare keys op (.text t) true) →
        q'.core? = some (.compare keys op (.text t) false) → op.losesCase t.toList = true →
          ∃ resource, q.holds resource = true ∧ q'.holds resource = false) := by
  have hwell : (Literal.text t).WellFormed := trivial
  obtain ⟨before, ending, f, hending, hf, hnames, hsegments⟩ := parse_comparison_names ha hv hread
  have hfilter (text : String) : (ending text).filter?.isSome = true := by
    cases hending <;> rfl
  obtain rfl : e = ⟨before ++ [ending (f op).toText]⟩ := congrArg mk hsegments
  obtain ⟨front, s, next, last, hfront, hs, hsteps⟩ := (compile_snoc (hfilter _)).mp hcompile
  obtain ⟨hplain, next', hfront', hnext⟩ := compilesTo_relaxes hr .resource hnames hfront
  obtain ⟨c, d, type, literal, exact, loose, last', hc, hs', htyped, hexact, hcd⟩ :=
    hending.relaxes hf hwell hr hnext hs
  have hliteral := Literal.typed_text htyped
  have hnull : literal ≠ .null := Literal.typed_ne_null (by simp) htyped
  have hholds := Query.holds_snoc hsteps hc
  have hholds' := Query.holds_snoc (q := ⟨front ++ [s.refiltered d]⟩) rfl
    (Step.filter?_refiltered hc)
  refine ⟨⟨front ++ [s.refiltered d]⟩, (parse_congr hr.isKnownExtension _).trans hread,
    (compile_snoc (hfilter _)).mpr ⟨front, _, next', last', hfront', hs', rfl⟩,
    fun hkeeps resource h => ?_, fun keys hcore hcore' hloses => ?_⟩
  -- both queries reach the same values, and the last filter alone differs
  · rw [hholds, List.any_eq_true] at h
    rw [hholds', List.any_eq_true, Step.reached_refiltered]
    obtain ⟨w, hw, hcw⟩ := h
    refine ⟨w, hw, hcd.holds hop hnull (fun x hx => ?_) hcw⟩
    cases exact with
    | false =>
      obtain rfl : loose = false := by simpa using hexact
      exact hx
    | true =>
      cases loose with
      | true => exact hx
      | false => exact TypedValue.test_relaxed hop hliteral hkeeps hx
  -- a resource with a lost text where the search looks
  · obtain ⟨text, hkept, hlost⟩ := TypedValue.test_lost hloses
    obtain ⟨keys', hown, hown'⟩ := hcd.core
    have hq : q.core? = some c.core := by simp [Query.core?, hsteps, hc]
    have hq' : (⟨front ++ [s.refiltered d]⟩ : Query).core? = some d.core := by
      simp [Query.core?, Step.filter?_refiltered hc]
    rw [hq, hown] at hcore
    rw [hq', hown'] at hcore'
    cases hcore
    cases hcore'
    obtain ⟨w, hw, hcw, hdw⟩ := hcd.exists_value hop hnull text
    obtain ⟨v, hv, hreached⟩ := s.exists_reached hw
    obtain ⟨resource, -, hadvanced⟩ := Step.exists_advanced hplain hv
    refine ⟨resource, ?_, ?_⟩
    · simp [hholds, hadvanced, hreached, hcw, hkept]
    · simp [hholds', hadvanced, Step.reached_refiltered, hreached, hdw, hlost]

/-- The motto of a user, compared in this way. -/
def mottoRegistry (caseExact : Bool) : Registry :=
  Registry.core.extend ⟨.user, Schema.make "urn:example:motto" "Motto" "What a user believes in"
    [{ Attribute.text "motto" "The motto" with caseExact := some caseExact }], false⟩

theorem mottoRegistry_relaxes : (mottoRegistry true).Relaxes (mottoRegistry false) := by
  refine .cons ?_ .nil
  exact .intro (.cons (.intro (by simp) .nil) .nil)

/-- The search for a text at the beginning of a motto. -/
def mottoBegins (t : String) : String := "urn:example:motto:motto sw \"" ++ t ++ "\""

/-- What the search is compiled to. -/
def mottoQuery (t : String) (caseExact : Bool) : Query :=
  ⟨[.extension "urn:example:motto", .test (.compare ["motto"] .sw (.text t) caseExact)]⟩

def mottoUser (motto : String) : Json :=
  .obj [("urn:example:motto", .obj [("motto", .str motto)]), ("userName", .str "bj")]

/-- A motto that begins with a capital and a sigma behind it is found when case is ignored. -/
theorem compile_relaxes_motto : ∃ e q',
    parse (mottoRegistry false) (mottoBegins "ΣΑ") = .ok e ∧
      e.compile (mottoRegistry false) .user = .ok q' ∧ q'.holds (mottoUser "ΣΑΣ") = true := by
  have hspelled : Spelled ⟨some "urn:example:motto", "motto", none⟩ :=
    ⟨by decide, by decide, by decide⟩
  have hread : parse (mottoRegistry true) (comparisonText
      (AttributePath.toText ⟨some "urn:example:motto", "motto", none⟩) .sw "\"ΣΑ\"") =
      .ok ⟨[.name "urn:example:motto", .test "motto sw \"ΣΑ\""]⟩ := by decide +kernel
  have hcompile : (⟨[.name "urn:example:motto", .test "motto sw \"ΣΑ\""]⟩ : Expression).compile
      (mottoRegistry true) .user = .ok (mottoQuery "ΣΑ" true) := by decide +kernel
  obtain ⟨q', hread', hcompile', hkeeps, -⟩ := compile_relaxes mottoRegistry_relaxes hspelled
    (t := "ΣΑ") (by decide) rfl hread hcompile
  exact ⟨_, q', hread', hcompile', hkeeps (by decide +kernel) _ (by decide +kernel)⟩

/-- A motto that begins with a sigma in front of a letter is lost when case is ignored: in the text
that is searched for, the same sigma ends a word. -/
theorem relaxed_loses : ∃ e, parse (mottoRegistry true) (mottoBegins "ΑΣ") = .ok e ∧
    parse (mottoRegistry false) (mottoBegins "ΑΣ") = .ok e ∧
    e.compile (mottoRegistry true) .user = .ok (mottoQuery "ΑΣ" true) ∧
    e.compile (mottoRegistry false) .user = .ok (mottoQuery "ΑΣ" false) ∧
    (mottoQuery "ΑΣ" true).holds (mottoUser "ΑΣΑ") = true ∧
    (mottoQuery "ΑΣ" false).holds (mottoUser "ΑΣΑ") = false :=
  ⟨⟨[.name "urn:example:motto", .test "motto sw \"ΑΣ\""]⟩, by decide +kernel, by decide +kernel,
    by decide +kernel, by decide +kernel, by decide +kernel, by decide +kernel⟩

end Expression

end Roster
