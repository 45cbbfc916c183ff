import Roster.Proofs.Expression.Dotted
import Roster.Proofs.Expression.Narrowed
import Roster.Proofs.Query.Bracketed
import Roster.Proofs.Query.Selection

/-!
A selection and a test of what it selects, in three spellings: the test behind the brackets, the
same in parentheses, and the test inside the brackets behind the filter in parentheses. They are
compiled to two steps, to one condition and to one step, and look for one and the same element.
-/

namespace Roster

open Filter (greatestLength greatestDepth IsTest)

/-! ### The texts -/

/-- A test behind the brackets of a selection. -/
def narrowedText (urn : Option String) (name filter test : String) : String :=
  selectionText urn name filter ++ "." ++ test

/-- A test inside the brackets, behind the filter in parentheses. -/
def joinedText (urn : Option String) (name filter test : String) : String :=
  selectionText urn name ("(" ++ filter ++ ") and " ++ test)

theorem narrowedText_toList (urn : Option String) (name filter test : String) :
    (narrowedText urn name filter test).toList = Expression.schemaText urn ++
      (name.toList ++ '[' :: (filter.toList ++ ']' :: '.' :: test.toList)) := by
  simp [narrowedText, selectionText_toList]

theorem joinedText_toList (urn : Option String) (name filter test : String) :
    (joinedText urn name filter test).toList = Expression.schemaText urn ++
      (name.toList ++ '[' :: (("(" ++ filter ++ ") and " ++ test).toList ++ [']'])) :=
  selectionText_toList urn name _

/-- In parentheses, the text begins with the path that a filter reads. -/
theorem enclosedText_toList (urn : Option String) (name filter test : String) :
    ("(" ++ narrowedText urn name filter test ++ ")").toList =
      '(' :: ((AttributePath.mk urn name none).toText.toList ++
        '[' :: (filter.toList ++ ']' :: '.' :: (test.toList ++ [')']))) := by
  simp [narrowedText_toList, Expression.toText_spelled, Filter.localPart]

/-- The filter in parentheses and the test, as one filter. -/
def joinedFilter (f t : Filter) : Filter :=
  .and (.group f) t

/-- The selection with the test joined to its filter, in parentheses. -/
def enclosedFilter (urn : Option String) (name : String) (f t : Filter) : Filter :=
  .group (.select ⟨urn, name, none⟩ (.and f.groupedIfOr t))

/-- A name, behind the URN of an extension or none, a filter for its elements and a test of one of
their sub-attributes, as texts and as read. The longest of the texts put together from them is
within the limits of reading, and so is the normalized form that is longest and deepest. -/
structure Narrowing (r : Registry) (urn : Option String) (name filter test : String)
    (f t : Filter) : Prop where
  extension : ∀ u ∈ urn, Expression.IsExtension r u
  spelled : isAttributeName name.toList = true
  readsFilter : Filter.parse filter = .ok f
  readsTest : Filter.parse test = .ok t
  trimmed : Trimmed test.toList
  path : ∃ sub, t.testPath? = some (.ofName sub)
  length : utf8Length (joinedText urn name filter test).toList ≤ greatestLength
  normalized :
    utf8Length (enclosedFilter urn name f t).bracketed.toText.toList ≤ greatestLength
  depth : (enclosedFilter urn name f t).bracketed.depth ≤ greatestDepth

/-! ### Compiling -/

/-- The query of a text. -/
def compileText (r : Registry) (kind : Kind) (text : String) : Except ExpressionError Query :=
  (Expression.parse r text).bind (·.compile r kind)

/-- A text that is read as one expression is compiled as that one. -/
theorem compileText_eq_ok {r : Registry} {kind : Kind} {text : String} {e : Expression}
    {p : Prop} (hread : ∀ i, Expression.parse r text = .ok i ↔ p ∧ i = e) {q : Query} :
    compileText r kind text = .ok q ↔ p ∧ e.compile r kind = .ok q := by
  refine bind_eq_ok.trans ?_
  constructor
  · rintro ⟨i, hi, hq⟩
    obtain ⟨hp, rfl⟩ := (hread i).mp hi
    exact ⟨hp, hq⟩
  · rintro ⟨hp, hq⟩
    exact ⟨e, (hread e).mpr ⟨hp, rfl⟩, hq⟩

variable {r : Registry} {kind : Kind} {scope : Scope} {urn : Option String} {name : String}
  {f g t : Filter} {a : Attribute} {c d : Condition} {q : Query}

/-- A filter and a test, compiled for the complex values of an attribute that a name leads to. -/
structure Narrows (r : Registry) (kind : Kind) (urn : Option String) (name : String)
    (f t : Filter) (container : List String) (a : Attribute) (c d : Condition) : Prop where
  found : ∃ attributes, r.behind? kind urn = some (container, attributes) ∧
    findAttribute? attributes name = some a
  complex : a.type = .complex
  readable : ∀ b ∈ f.paths, b.isNot = false
  filter : f.compile r kind (.members a.subAttributes) = .ok c
  test : t.compile r kind (.members a.subAttributes) = .ok d

/-- There is one way to compile them. -/
theorem Narrows.unique {container container' : List String} {a a' : Attribute}
    {c c' d d' : Condition} (h : Narrows r kind urn name f t container a c d)
    (h' : Narrows r kind urn name f t container' a' c' d') :
    container' = container ∧ a' = a ∧ c' = c ∧ d' = d := by
  obtain ⟨attributes, hbehind, ha⟩ := h.found
  obtain ⟨attributes', hbehind', ha'⟩ := h'.found
  cases hbehind.symm.trans hbehind'
  cases ha.symm.trans ha'
  cases h.filter.symm.trans h'.filter
  cases h.test.symm.trans h'.test
  exact ⟨rfl, rfl, rfl, rfl⟩

theorem compiles_selection {text : String} {step : Step} {last : Scope} :
    (Segment.selection name text).Compiles r kind scope step last ↔
      ∃ a f c, scope.find? kind name = some a ∧ a.type = .complex ∧ Filter.parse text = .ok f ∧
        f.compile r kind (.members a.subAttributes) = .ok c ∧
          step = .attribute a.name (some c) ∧ last = .members a.subAttributes := by
  constructor
  · intro h
    cases h with
    | selection hfind htype hread hinner => exact ⟨_, _, _, hfind, htype, hread, hinner, rfl, rfl⟩
  · rintro ⟨a, f, c, hfind, htype, hread, hinner, rfl, rfl⟩
    exact .selection hfind htype hread hinner

theorem compiles_test {text : String} {step : Step} {last : Scope} :
    (Segment.test text).Compiles r kind scope step last ↔
      ∃ f c, Filter.parse text = .ok f ∧ f.compile r kind scope = .ok c ∧ step = .test c ∧
        last = scope := by
  constructor
  · intro h
    cases h with
    | test hread h => exact ⟨_, _, hread, h, rfl, rfl⟩
  · rintro ⟨f, c, hread, h, rfl, rfl⟩
    exact .test hread h

/-- The segment of a URN leads to where the name behind it is looked up. -/
theorem compilesTo_front (hurn : ∀ u ∈ urn, isUrn u = true) {front : List Step} :
    (∃ next, CompilesTo r kind .resource (urn.map Segment.name).toList front next ∧
      next.find? kind name = some a) ↔
        ∃ container, front = container.map .extension ∧
          ∃ attributes, r.behind? kind urn = some (container, attributes) ∧
            findAttribute? attributes name = some a := by
  cases urn with
  | none =>
    constructor
    · rintro ⟨next, hfront, ha⟩
      obtain ⟨rfl, rfl⟩ := compilesTo_nil.mp hfront
      exact ⟨[], rfl, kind.attributes, rfl, ha⟩
    · rintro ⟨container, rfl, attributes, hbehind, ha⟩
      cases hbehind
      exact ⟨.resource, .nil, ha⟩
  | some u =>
    have hisUrn := hurn u rfl
    constructor
    · rintro ⟨next, hfront, ha⟩
      obtain ⟨step, last, rest, hstep, hrest, rfl⟩ := compilesTo_cons.mp hfront
      obtain ⟨rfl, rfl⟩ := compilesTo_nil.mp hrest
      cases hstep with
      | extension _ hs =>
        refine ⟨[_], rfl, _, ?_, ha⟩
        rw [Registry.behind?, hs]
        rfl
      | name hplain _ =>
        rw [hisUrn] at hplain
        cases hplain
    · rintro ⟨container, rfl, attributes, hbehind, ha⟩
      obtain ⟨s, hs, hpair⟩ := Option.map_eq_some_iff.mp hbehind
      cases hpair
      exact ⟨.members s.attributes, .cons (.extension hisUrn hs) .nil, ha⟩

/-- A filter looks the name up where a path does. -/
theorem qualified_front (hcore : ∀ u ∈ urn, isCoreSchema u = false) {container : List String} :
    (∃ inside, Scope.qualified? r kind .resource urn = some (container, inside) ∧
      inside.find? kind name = some a) ↔
        ∃ attributes, r.behind? kind urn = some (container, attributes) ∧
          findAttribute? attributes name = some a := by
  cases urn with
  | none =>
    constructor
    · rintro ⟨inside, hinside, ha⟩
      cases hinside
      exact ⟨kind.attributes, rfl, ha⟩
    · rintro ⟨attributes, hbehind, ha⟩
      cases hbehind
      exact ⟨.resource, rfl, ha⟩
  | some u =>
    have hplace : Scope.qualified? r kind .resource (some u) =
        (r.extension? kind u).map fun s => ([s.id], .members s.attributes) := by
      simp [Scope.qualified?, hcore u rfl]
    rw [hplace, Registry.behind?]
    constructor
    · rintro ⟨inside, hinside, ha⟩
      obtain ⟨s, hs, hpair⟩ := Option.map_eq_some_iff.mp hinside
      cases hpair
      exact ⟨s.attributes, by rw [hs]; rfl, ha⟩
    · rintro ⟨attributes, hbehind, ha⟩
      obtain ⟨s, hs, hpair⟩ := Option.map_eq_some_iff.mp hbehind
      cases hpair
      exact ⟨.members s.attributes, by rw [hs]; rfl, ha⟩

section Compiled

variable {filter test : String}

/-- A test behind the brackets is compiled to a step of its own. -/
theorem compile_narrowed (hurn : ∀ u ∈ urn, isUrn u = true)
    (hfilter : ∀ g, Filter.parse filter = .ok g ↔ (∀ b ∈ f.paths, b.isNot = false) ∧ g = f)
    (htest : Filter.parse test = .ok t) :
    (⟨(urn.map Segment.name).toList ++ [.selection name filter, .test test]⟩ :
      Expression).compile r kind = .ok q ↔
        ∃ container a c d, Narrows r kind urn name f t container a c d ∧
          q.steps = container.map .extension ++ [.attribute a.name (some c), .test d] := by
  have hsegments : (urn.map Segment.name).toList ++ [.selection name filter, .test test] =
      (urn.map Segment.name).toList ++ [.selection name filter] ++ [.test test] := by simp
  rw [hsegments, Expression.compile_snoc rfl]
  constructor
  · rintro ⟨before, step, next, last, hbefore, hstep, hsteps⟩
    obtain ⟨front, back, between, hfront, hback, rfl⟩ := compilesTo_append.mp hbefore
    obtain ⟨select, after, rest, hselect, hrest, rfl⟩ := compilesTo_cons.mp hback
    obtain ⟨rfl, rfl⟩ := compilesTo_nil.mp hrest
    obtain ⟨a, g, c, hfind, htype, hread, hinner, rfl, rfl⟩ := compiles_selection.mp hselect
    obtain ⟨hnames, rfl⟩ := (hfilter g).mp hread
    obtain ⟨i, d, hread', hd, rfl, rfl⟩ := compiles_test.mp hstep
    cases htest.symm.trans hread'
    obtain ⟨container, rfl, hfound⟩ := (compilesTo_front hurn).mp ⟨_, hfront, hfind⟩
    exact ⟨container, a, c, d, ⟨hfound, htype, hnames, hinner, hd⟩, by simp [hsteps]⟩
  · rintro ⟨container, a, c, d, h, hsteps⟩
    obtain ⟨between, hfront, hfind⟩ := (compilesTo_front hurn).mpr ⟨container, rfl, h.found⟩
    have hread := (hfilter f).mpr ⟨h.readable, rfl⟩
    refine ⟨_, _, _, _, compilesTo_append.mpr ⟨_, _, _, hfront,
      .cons (.selection hfind h.complex hread h.filter) .nil, rfl⟩, .test htest h.test, ?_⟩
    simp [hsteps]

/-- A test inside the brackets is a part of the condition there. -/
theorem compile_joined (hurn : ∀ u ∈ urn, isUrn u = true)
    (hfilter : ∀ g, Filter.parse filter = .ok g ↔
      (∀ b ∈ f.paths, b.isNot = false) ∧ g = joinedFilter f t) :
    (⟨(urn.map Segment.name).toList ++ [.selection name filter]⟩ : Expression).compile r kind =
        .ok q ↔
      ∃ container a c d, Narrows r kind urn name f t container a c d ∧
        q = selectionQuery container a.name (.and c d) := by
  rw [Expression.compile_snoc rfl]
  constructor
  · rintro ⟨front, step, next, last, hfront, hstep, hsteps⟩
    obtain ⟨a, g, e, hfind, htype, hread, hinner, rfl, rfl⟩ := compiles_selection.mp hstep
    obtain ⟨hnames, rfl⟩ := (hfilter g).mp hread
    obtain ⟨c, d, hc, hd, rfl⟩ := Filter.compile_and.mp hinner
    obtain ⟨container, rfl, hfound⟩ := (compilesTo_front hurn).mp ⟨_, hfront, hfind⟩
    obtain ⟨steps⟩ := q
    exact ⟨container, a, c, d, ⟨hfound, htype, hnames, hc, hd⟩, congrArg Query.mk hsteps⟩
  · rintro ⟨container, a, c, d, h, rfl⟩
    obtain ⟨between, hfront, hfind⟩ := (compilesTo_front hurn).mpr ⟨container, rfl, h.found⟩
    have hread := (hfilter _).mpr ⟨h.readable, rfl⟩
    have hinner : (joinedFilter f t).compile r kind (.members a.subAttributes) = .ok (.and c d) :=
      Filter.compile_and.mpr ⟨c, d, h.filter, h.test, rfl⟩
    exact ⟨_, _, _, _, hfront, .selection hfind h.complex hread hinner, rfl⟩

/-- In parentheses all of it is one condition. -/
theorem compile_enclosed (hcore : ∀ u ∈ urn, isCoreSchema u = false)
    (hfilter : ∀ g, Filter.parse filter = .ok g ↔
      (∀ b ∈ f.paths, b.isNot = false) ∧ g = enclosedFilter urn name f t) :
    (⟨[.test filter]⟩ : Expression).compile r kind = .ok q ↔
      ∃ container a c d, Narrows r kind urn name f t container a c d ∧
        q = ⟨[.test (.any (container ++ [a.name]) (.and c d))]⟩ := by
  have hgrouped {scope : Scope} {e : Condition} :
      (Filter.and f.groupedIfOr t).compile r kind scope = .ok e ↔ ∃ c d,
        f.compile r kind scope = .ok c ∧ t.compile r kind scope = .ok d ∧ e = .and c d := by
    rw [Filter.compile_and, Filter.compile_groupedIfOr]
  change (⟨[] ++ [.test filter]⟩ : Expression).compile r kind = .ok q ↔ _
  rw [Expression.compile_snoc rfl]
  constructor
  · rintro ⟨front, step, next, last, hfront, hstep, hsteps⟩
    obtain ⟨rfl, rfl⟩ := compilesTo_nil.mp hfront
    obtain ⟨g, e, hread, hcompiled, rfl, rfl⟩ := compiles_test.mp hstep
    obtain ⟨hnames, rfl⟩ := (hfilter g).mp hread
    obtain ⟨owner, inner, howner, htype, hinner, rfl⟩ := Filter.compile_select.mp hcompiled
    obtain ⟨c, d, hc, hd, rfl⟩ := hgrouped.mp hinner
    obtain ⟨container, inside, hplace, hreach⟩ := AttributePath.resolve_eq_ok.mp howner
    obtain ⟨a, ha, rfl⟩ := (AttributePath.reach_name rfl).mp hreach
    obtain ⟨steps⟩ := q
    exact ⟨container, a, c, d, ⟨(qualified_front hcore).mp ⟨inside, hplace, ha⟩, htype, hnames,
      hc, hd⟩, congrArg Query.mk hsteps⟩
  · rintro ⟨container, a, c, d, h, rfl⟩
    obtain ⟨inside, hplace, ha⟩ := (qualified_front hcore).mpr h.found
    have hread := (hfilter _).mpr ⟨h.readable, rfl⟩
    have howner : AttributePath.resolve r kind .resource ⟨urn, name, none⟩ =
        .ok ⟨container ++ [a.name], a.traits, a.subAttributes⟩ :=
      AttributePath.resolve_eq_ok.mpr
        ⟨container, inside, hplace, (AttributePath.reach_name rfl).mpr ⟨a, ha, rfl⟩⟩
    have hinner := hgrouped.mpr ⟨c, d, h.filter, h.test, rfl⟩
    have hcompiled : (enclosedFilter urn name f t).compile r kind .resource =
        .ok (.any (container ++ [a.name]) (.and c d)) :=
      Filter.compile_select.mpr ⟨_, _, howner, h.complex, hinner, rfl⟩
    exact ⟨[], _, _, _, .nil, .test hread hcompiled, rfl⟩

end Compiled

/-! ### What they hold of -/

/-- To narrow a selection by a step is to narrow its condition. -/
theorem holds_narrowed (container : List String) (key : String) (c d : Condition) (v : Json) :
    (Query.mk (container.map .extension ++ [.attribute key (some c), .test d])).holds v =
      (selectionQuery container key (.and c d)).holds v := by
  simp only [Query.holds, Query.select, selectionQuery, List.foldl_append, List.foldl_cons,
    List.foldl_nil, Step.advance, List.filter_filter]
  congr 3
  funext w
  simp only [Condition.holds, Bool.and_comm]

/-- Nothing but an object is held for the extension that a URN names. -/
def HoldsNoList (r : Registry) (kind : Kind) (urn : Option String) (v : Json) : Prop :=
  ∀ container attributes, r.behind? kind urn = some (container, attributes) →
    ∀ id ∈ container, ∀ items, v.member? id ≠ some (.arr items)

/-- One condition on a whole resource reaches the elements that the steps do. -/
theorem holds_enclosed {container : List String} {attributes : List Attribute} {v : Json}
    (hbehind : r.behind? kind urn = some (container, attributes))
    (hv : HoldsNoList r kind urn v) (key : String) (c : Condition) :
    (Query.mk [.test (.any (container ++ [key]) c)]).holds v =
      (selectionQuery container key c).holds v := by
  have hlist := hv container attributes hbehind
  rw [Query.holds_test, holds_selectionQuery]
  cases urn with
  | none =>
    cases hbehind
    simp [Condition.holds, Json.collect, Json.follow?]
  | some u =>
    obtain ⟨s, -, hpair⟩ := Option.map_eq_some_iff.mp hbehind
    cases hpair
    have hreach : Json.collect [v] [s.id, key] = _ := Json.collect_behind [] (hlist s.id (by simp))
    simp only [Condition.holds, List.cons_append, List.nil_append, hreach, Json.follow?]
    cases hheld : v.member? s.id with
    | none =>
      have hnone : Members.find? ([] : Members Json) key = none := rfl
      simp [Json.collect, Json.member?, Json.members?, hnone]
    | some inner => simp [Json.collect]

/-! ### What is read -/

namespace Narrowing

variable {filter test text : String}

theorem isTest (h : Narrowing r urn name filter test f t) :
    ∃ sub behind, IsTest test.toList sub behind t := by
  obtain ⟨sub, hsub⟩ := h.path
  obtain ⟨behind, ht⟩ := Filter.isTest_of_parse h.trimmed h.readsTest hsub
  exact ⟨sub, behind, ht⟩

theorem reads_toList (h : Narrowing r urn name filter test f t) :
    Filter.parse (String.ofList filter.toList) = .ok f := by
  simpa using h.readsFilter

theorem bracketed_test (h : Narrowing r urn name filter test f t) : t.bracketed = t := by
  obtain ⟨sub, hsub⟩ := h.path
  exact Expression.bracketed_named hsub

theorem bracketed_enclosed (h : Narrowing r urn name filter test f t) :
    (enclosedFilter urn name f t).bracketed = enclosedFilter urn name f.bracketed t := by
  simp [enclosedFilter, Filter.bracketed, Expression.bracketed_groupedIfOr, h.bracketed_test]

theorem bracketed_joined (h : Narrowing r urn name filter test f t) :
    (joinedFilter f t).bracketed = joinedFilter f.bracketed t := by
  simp [joinedFilter, Filter.bracketed, h.bracketed_test]

/-- The filter, and the filter in parentheses with the test, are no longer than all of it, and not
as deep. -/
theorem within (h : Narrowing r urn name filter test f t) :
    (utf8Length f.bracketed.toText.toList ≤ greatestLength ∧
      f.bracketed.depth + 2 ≤ greatestDepth) ∧
    utf8Length t.toText.toList ≤ greatestLength ∧
    utf8Length (joinedFilter f.bracketed t).toText.toList ≤ greatestLength ∧
      (joinedFilter f.bracketed t).depth ≤ greatestDepth := by
  have hlength := h.normalized
  have hdepth := h.depth
  have hgrouped := Filter.length_groupedIfOr f.bracketed
  have hgroupedDepth := Filter.depth_groupedIfOr f.bracketed
  rw [h.bracketed_enclosed] at hlength hdepth
  simp only [enclosedFilter, joinedFilter, Filter.toText, Filter.depth, String.toList_append,
    utf8Length_append] at hlength hdepth ⊢
  have hopening : utf8Length "(".toList = 1 := rfl
  have hclosing : utf8Length ")".toList = 1 := rfl
  have hbracket : utf8Length "[".toList = 1 := rfl
  omega

theorem wellFormed (h : Narrowing r urn name filter test f t) :
    f.bracketed.WellFormed ∧ t.WellFormed ∧ t.isOperand = true ∧
      ∀ a ∈ t.paths, a.isNot = false := by
  obtain ⟨sub, behind, ht⟩ := h.isTest
  refine ⟨(Filter.parse_wellFormed h.readsFilter).bracketed, Filter.parse_wellFormed h.readsTest,
    Filter.isOperand_of_testPath? ht.path, ?_⟩
  rw [Filter.paths_of_testPath? ht.path]
  simpa [AttributePath.isNot, AttributePath.ofName] using ht.notNot

/-- The normalized forms are read back where no name in them is `not`. -/
theorem rereads (h : Narrowing r urn name filter test f t) :
    (∀ g, Filter.parse f.bracketed.toText = .ok g ↔
      (∀ b ∈ f.bracketed.paths, b.isNot = false) ∧ g = f.bracketed) ∧
    Filter.parse t.toText = .ok t ∧
    ∀ g, Filter.parse (joinedFilter f t).bracketed.toText = .ok g ↔
      (∀ b ∈ f.bracketed.paths, b.isNot = false) ∧ g = joinedFilter f.bracketed t := by
  obtain ⟨hf, ht, hoperand, hnames⟩ := h.wellFormed
  obtain ⟨⟨hlength, hdepth⟩, htlength, hjlength, hjdepth⟩ := h.within
  refine ⟨?_, ?_, ?_⟩
  · exact Filter.parse_names hf hlength (by omega) .rfl
  · obtain ⟨sub, behind, hsub⟩ := h.isTest
    exact Expression.parse_toText_test ht hsub.path hsub.notNot htlength
  · rw [h.bracketed_joined]
    refine Filter.parse_names ⟨rfl, hoperand, hf, ht⟩ hjlength hjdepth ?_
    rw [joinedFilter, Filter.paths, Filter.paths, List.forall_mem_append, and_iff_left hnames]

/-- The name behind the URN, as a path in a filter. -/
theorem wellFormed_path (h : Narrowing r urn name filter test f t)
    (hqualified : ∀ u ∈ urn, u.toList.all Filter.isQualifiedChar = true) :
    (AttributePath.mk urn name none).WellFormed :=
  ⟨h.spelled, by simp, fun u hu => ⟨hqualified u hu, ((h.extension u hu).begins [':']).1⟩⟩

/-- The normalized form in parentheses is too, if the name in front is not `not` either. -/
theorem rereads_enclosed (h : Narrowing r urn name filter test f t)
    (ha : (AttributePath.mk urn name none).WellFormed)
    (hnot : (AttributePath.mk urn name none).isNot = false) (g : Filter) :
    Filter.parse (enclosedFilter urn name f t).bracketed.toText = .ok g ↔
      (∀ b ∈ f.bracketed.paths, b.isNot = false) ∧ g = enclosedFilter urn name f.bracketed t := by
  obtain ⟨hf, ht, hoperand, hnames⟩ := h.wellFormed
  have hlength := h.normalized
  have hdepth := h.depth
  rw [h.bracketed_enclosed] at hlength hdepth ⊢
  have hwell : (enclosedFilter urn name f.bracketed t).WellFormed :=
    ⟨ha, rfl, Filter.isOr_groupedIfOr _, hoperand, hf.groupedIfOr, ht⟩
  refine Filter.parse_names hwell hlength hdepth ?_ g
  simp only [enclosedFilter, Filter.paths, List.forall_mem_cons, List.forall_mem_append,
    Filter.paths_groupedIfOr, and_iff_left hnames, and_iff_right hnot]

/-! ### The three spellings -/

/-- The texts are no longer than the one with the test inside the brackets. -/
theorem text_lengths (h : Narrowing r urn name filter test f t) :
    utf8Length (narrowedText urn name filter test).toList ≤ greatestLength ∧
      utf8Length ("(" ++ narrowedText urn name filter test ++ ")").toList ≤ greatestLength ∧
        utf8Length ("(" ++ filter ++ ") and " ++ test).toList ≤ greatestLength := by
  have hlength := h.length
  simp only [narrowedText, joinedText, selectionText, String.toList_append,
    utf8Length_append] at hlength ⊢
  have hopening : utf8Length "(".toList = 1 := rfl
  have hclosing : utf8Length ")".toList = 1 := rfl
  have hbracket : utf8Length "[".toList = 1 := rfl
  have hbracket' : utf8Length "]".toList = 1 := rfl
  have hdot : utf8Length ".".toList = 1 := rfl
  have hand : utf8Length ") and ".toList = 6 := rfl
  omega

/-- The test behind the brackets. -/
theorem narrowed_iff (h : Narrowing r urn name filter test f t) :
    compileText r kind (narrowedText urn name filter test) = .ok q ↔
      Expression.Unreached r urn name ∧
        ∃ container a c d, Narrows r kind urn name f.bracketed t container a c d ∧
          q.steps = container.map .extension ++ [.attribute a.name (some c), .test d] := by
  obtain ⟨sub, behind, ht⟩ := h.isTest
  obtain ⟨hfilter, htest, -⟩ := h.rereads
  have hscheme : ∀ u ∈ urn, isUrn u = true := fun u hu => (h.extension u hu).scheme
  rw [compileText_eq_ok fun _ => Expression.parse_narrowed h.extension h.spelled h.readsFilter ht
    (narrowedText_toList urn name filter test) h.text_lengths.1]
  rw [compile_narrowed hscheme hfilter htest]

/-- The test inside the brackets. -/
theorem joined_iff (h : Narrowing r urn name filter test f t) :
    compileText r kind (joinedText urn name filter test) = .ok q ↔
      Expression.Unreached r urn name ∧
        ∃ container a c d, Narrows r kind urn name f.bracketed t container a c d ∧
          q = selectionQuery container a.name (.and c d) := by
  obtain ⟨sub, behind, ht⟩ := h.isTest
  obtain ⟨-, -, hjoined⟩ := h.rereads
  have hscheme : ∀ u ∈ urn, isUrn u = true := fun u hu => (h.extension u hu).scheme
  have hshallow := Filter.depth_bracketed f
  have hdepth : f.depth + 1 ≤ greatestDepth := by
    have hwithin := h.within.1.2
    omega
  have hread : Filter.parse ("(" ++ filter ++ ") and " ++ test) = .ok (joinedFilter f t) := by
    rw [← String.ofList_toList (s := "(" ++ filter ++ ") and " ++ test)]
    exact Filter.parse_joined h.reads_toList hdepth ht (by simp) h.text_lengths.2.2
  rw [compileText_eq_ok fun _ => Expression.parse_selected h.extension h.spelled hread
    (joinedText_toList urn name filter test) h.length]
  rw [compile_joined hscheme hjoined]

/-- The test behind the brackets, all in parentheses. -/
theorem enclosed_iff (h : Narrowing r urn name filter test f t) (kind : Kind) (q : Query)
    (hcore : ∀ u ∈ urn, isCoreSchema u = false)
    (hqualified : ∀ u ∈ urn, u.toList.all Filter.isQualifiedChar = true)
    (hnot : (AttributePath.mk urn name none).isNot = false) :
    compileText r kind ("(" ++ narrowedText urn name filter test ++ ")") = .ok q ↔
      ∃ container a c d, Narrows r kind urn name f.bracketed t container a c d ∧
        q = ⟨[.test (.any (container ++ [a.name]) (.and c d))]⟩ := by
  obtain ⟨sub, behind, ht⟩ := h.isTest
  have ha := h.wellFormed_path hqualified
  have hshallow := Filter.depth_bracketed f
  have hdepth : f.depth + 2 ≤ greatestDepth := by
    have hwithin := h.within.1.2
    omega
  have htext := enclosedText_toList urn name filter test
  have hread : Filter.parse ("(" ++ narrowedText urn name filter test ++ ")") =
      .ok (enclosedFilter urn name f t) := by
    rw [← String.ofList_toList (s := "(" ++ narrowedText urn name filter test ++ ")")]
    exact Filter.parse_narrowed_group ha rfl hnot h.reads_toList hdepth ht htext
      h.text_lengths.2.1
  have htrim := Expression.trimmed_parentheses (narrowedText urn name filter test)
  have hparse (e : Expression) :
      Expression.parse r ("(" ++ narrowedText urn name filter test ++ ")") = .ok e ↔
        True ∧ e = ⟨[.test (enclosedFilter urn name f t).bracketed.toText]⟩ := by
    rw [Expression.parse_parenthesis htext htrim, hread]
    simp
  rw [compileText_eq_ok hparse, compile_enclosed hcore (h.rereads_enclosed ha hnot), true_and]

/-- The name `not` is refused with and without parentheses, no attribute of a kind having it. -/
theorem not_compiled (h : Narrowing r none name filter test f t) (kind : Kind)
    (hnot : (AttributePath.mk none name none).isNot = true) :
    (∀ q, compileText r kind (narrowedText none name filter test) ≠ .ok q) ∧
      ∀ q, compileText r kind ("(" ++ narrowedText none name filter test ++ ")") ≠ .ok q := by
  constructor
  · intro q hq
    obtain ⟨-, container, a, c, d, hnarrows, -⟩ := h.narrowed_iff.mp hq
    obtain ⟨attributes, hbehind, ha⟩ := hnarrows.found
    cases hbehind
    have hname : sameName a.name "not" = true := by
      refine sameName_trans (findAttribute?_sameName ha) ?_
      simpa [AttributePath.isNot] using hnot
    have hnone : ∀ b ∈ kind.attributes, sameName b.name "not" = false := by
      cases kind <;> decide
    rw [hnone a (findAttribute?_mem ha)] at hname
    cases hname
  · intro q hq
    obtain ⟨e, he, -⟩ := bind_eq_ok.mp hq
    have htext := enclosedText_toList none name filter test
    obtain ⟨g, hg, -⟩ := (Expression.parse_parenthesis htext
      (Expression.trimmed_parentheses _)).mp he
    rw [← String.ofList_toList (s := "(" ++ narrowedText none name filter test ++ ")")] at hg
    refine Filter.parse_group_not (filter.toList ++ ']' :: '.' :: test.toList)
      (h.wellFormed_path (by simp)) hnot ?_ hg
    simp [htext]

end Narrowing

/-! ### Agreement -/

/-- No extension has the URN of a core schema, or continues that of another schema with one more
component. -/
structure ExtensionsApart (r : Registry) : Prop where
  core : ∀ e ∈ r.extensions, isCoreSchema e.schema.id = false
  continues : ∀ e ∈ r.extensions, ∀ urn component : String, Expression.IsSchema r urn →
    ':' ∉ component.toList → sameName e.schema.id (urn ++ ":" ++ component) = false

/-- What stands in front of the last colon of a URN. -/
def urnFront (urn : String) : String :=
  String.ofList (Filter.splitLastColon urn.toList).1

/-- Extensions are apart where no schema is in front of the last component of one. -/
theorem ExtensionsApart.of_fronts (h : ∀ e ∈ r.extensions, isCoreSchema e.schema.id = false ∧
    r.isKnownExtension (urnFront e.schema.id) = false ∧
      isCoreSchema (urnFront e.schema.id) = false) : ExtensionsApart r := by
  refine ⟨fun e he => (h e he).1, fun e he urn component hurn hcomponent => ?_⟩
  obtain ⟨-, hknown, hcore⟩ := h e he
  rw [← Bool.not_eq_true]
  intro hsame
  have hcolon : ':' ∈ e.schema.id.toList := by
    rw [← mem_foldCase rfl, sameName_iff.mp hsame, mem_foldCase rfl]
    simp
  obtain ⟨front, last, hid, hlast⟩ := Filter.exists_lastColon hcolon
  have hfront : urnFront e.schema.id = String.ofList front := by
    rw [urnFront, hid, Filter.splitLastColon_append hlast]
  have hschema := (Expression.isSchema_congr
    (sameName_lastColon hid hlast hcomponent hsame).1).mpr hurn
  rw [Expression.IsSchema, ← hfront, hknown, hcore] at hschema
  simp at hschema

/-- Two texts are both refused as queries, or both compiled to queries that hold of the same
resources, as far as these have a property. -/
structure Alike (r : Registry) (kind : Kind) (text text' : String) (p : Json → Prop) : Prop where
  both : (∃ q, compileText r kind text = .ok q) ↔ ∃ q, compileText r kind text' = .ok q
  same : ∀ q q', compileText r kind text = .ok q → compileText r kind text' = .ok q' →
    ∀ v, p v → q.holds v = q'.holds v

variable {filter test : String}

theorem ExtensionsApart.unreached (hr : ExtensionsApart r)
    (h : Narrowing r urn name filter test f t)
    (hcore : ∀ u ∈ urn, isCoreSchema (u ++ ":" ++ name) = false) :
    Expression.Unreached r urn name := by
  rintro u hu (hknown | hreached)
  · obtain ⟨e, he, hsame⟩ := List.any_eq_true.mp hknown
    have hcolon := Filter.not_mem_of_isAttributeName h.spelled (c := ':') rfl
    rw [hr.continues e he u name (.inl (h.extension u hu).known) hcolon] at hsame
    cases hsame
  · rw [hcore u hu] at hreached
    cases hreached

theorem ExtensionsApart.not_core (hr : ExtensionsApart r) {u : String}
    (hknown : r.isKnownExtension u = true) : isCoreSchema u = false := by
  obtain ⟨e, he, hsame⟩ := List.any_eq_true.mp hknown
  rw [← Expression.isCoreSchema_sameName hsame]
  exact hr.core e he

/-- The test behind the brackets and inside of them. -/
theorem narrowed_alike_joined (h : Narrowing r urn name filter test f t) :
    Alike r kind (narrowedText urn name filter test) (joinedText urn name filter test)
      fun _ => True := by
  constructor
  · constructor
    · rintro ⟨q, hq⟩
      obtain ⟨hfree, container, a, c, d, hnarrows, -⟩ := h.narrowed_iff.mp hq
      exact ⟨_, h.joined_iff.mpr ⟨hfree, container, a, c, d, hnarrows, rfl⟩⟩
    · rintro ⟨q, hq⟩
      obtain ⟨hfree, container, a, c, d, hnarrows, -⟩ := h.joined_iff.mp hq
      exact ⟨⟨_⟩, h.narrowed_iff.mpr ⟨hfree, container, a, c, d, hnarrows, rfl⟩⟩
  · rintro ⟨steps⟩ q' hq hq' v -
    obtain ⟨-, container, a, c, d, hnarrows, rfl⟩ := h.narrowed_iff.mp hq
    obtain ⟨-, container', a', c', d', hnarrows', rfl⟩ := h.joined_iff.mp hq'
    obtain ⟨rfl, rfl, rfl, rfl⟩ := hnarrows.unique hnarrows'
    exact holds_narrowed container' a'.name c' d' v

/-- The test behind the brackets, by itself and in parentheses. -/
theorem narrowed_alike_enclosed (hr : ExtensionsApart r) (h : Narrowing r urn name filter test f t)
    (hqualified : ∀ u ∈ urn, u.toList.all Filter.isQualifiedChar = true)
    (hfree : ∀ u ∈ urn, isCoreSchema (u ++ ":" ++ name) = false) :
    Alike r kind (narrowedText urn name filter test)
      ("(" ++ narrowedText urn name filter test ++ ")") (HoldsNoList r kind urn) := by
  have hunreached := hr.unreached h hfree
  have hcore : ∀ u ∈ urn, isCoreSchema u = false := fun u hu =>
    hr.not_core (h.extension u hu).known
  cases hnot : (AttributePath.mk urn name none).isNot with
  | true =>
    cases urn with
    | some u => cases hnot
    | none =>
      obtain ⟨hplain, henclosed⟩ := h.not_compiled kind hnot
      exact ⟨iff_of_false (fun ⟨q, hq⟩ => hplain q hq) (fun ⟨q, hq⟩ => henclosed q hq),
        fun q q' hq => absurd hq (hplain q)⟩
  | false =>
    have henclosed {q : Query} := h.enclosed_iff kind q hcore hqualified hnot
    constructor
    · constructor
      · rintro ⟨q, hq⟩
        obtain ⟨-, container, a, c, d, hnarrows, -⟩ := h.narrowed_iff.mp hq
        exact ⟨_, henclosed.mpr ⟨container, a, c, d, hnarrows, rfl⟩⟩
      · rintro ⟨q, hq⟩
        obtain ⟨container, a, c, d, hnarrows, -⟩ := henclosed.mp hq
        exact ⟨⟨_⟩, h.narrowed_iff.mpr ⟨hunreached, container, a, c, d, hnarrows, rfl⟩⟩
    · rintro ⟨steps⟩ q' hq hq' v hv
      obtain ⟨-, container, a, c, d, hnarrows, rfl⟩ := h.narrowed_iff.mp hq
      obtain ⟨container', a', c', d', hnarrows', rfl⟩ := henclosed.mp hq'
      obtain ⟨rfl, rfl, rfl, rfl⟩ := hnarrows.unique hnarrows'
      obtain ⟨attributes, hbehind, -⟩ := hnarrows.found
      rw [holds_enclosed hbehind hv]
      exact holds_narrowed container' a'.name c' d' v

/-- A test behind the brackets of a selection, the same in parentheses and the test inside the
brackets are refused together or select the same element. In parentheses that takes a URN which a
filter can read and which makes no core schema with the name behind it, and of resources that they
hold no list for the extension. -/
theorem narrowed_agrees (hr : ExtensionsApart r) (h : Narrowing r urn name filter test f t)
    (kind : Kind) :
    Alike r kind (narrowedText urn name filter test) (joinedText urn name filter test)
        (fun _ => True) ∧
      ((∀ u ∈ urn, u.toList.all Filter.isQualifiedChar = true ∧
          isCoreSchema (u ++ ":" ++ name) = false) →
        Alike r kind (narrowedText urn name filter test)
          ("(" ++ narrowedText urn name filter test ++ ")") (HoldsNoList r kind urn)) :=
  ⟨narrowed_alike_joined h, fun hurn =>
    narrowed_alike_enclosed hr h (fun u hu => (hurn u hu).1) fun u hu => (hurn u hu).2⟩

/-- A test of the managers that have one of two values. -/
theorem narrowed_agrees_manager :
    let text := narrowedText (some Urn.enterpriseUser) "manager" "value eq \"x\" or value ew \"y\""
      "displayName pr"
    let joined := joinedText (some Urn.enterpriseUser) "manager"
      "value eq \"x\" or value ew \"y\"" "displayName pr"
    ∃ q, compileText .standard .user text = .ok q ∧
      Alike .standard .user text joined (fun _ => True) ∧
        Alike .standard .user text ("(" ++ text ++ ")")
          (HoldsNoList .standard .user (some Urn.enterpriseUser)) := by
  intro text joined
  let f : Filter := .or (.compare (.ofName "value") .eq (.text "x"))
    (.compare (.ofName "value") .ew (.text "y"))
  let t : Filter := .present (.ofName "displayName")
  have hr : ExtensionsApart .standard := .of_fronts (by decide +kernel)
  have h : Narrowing .standard (some Urn.enterpriseUser) "manager"
      "value eq \"x\" or value ew \"y\"" "displayName pr" f t :=
    { extension := by
        rintro u ⟨⟩
        exact ⟨by decide +kernel, by decide +kernel, by decide +kernel⟩
      spelled := by decide
      readsFilter := by decide +kernel
      readsTest := by decide +kernel
      trimmed := by
        constructor <;> rintro c ⟨⟩ <;> decide
      path := ⟨"displayName", rfl⟩
      length := by decide +kernel
      normalized := by decide +kernel
      depth := by decide +kernel }
  obtain ⟨hjoined, henclosed⟩ := narrowed_agrees hr h .user
  have hurn : ∀ u ∈ some Urn.enterpriseUser, u.toList.all Filter.isQualifiedChar = true ∧
      isCoreSchema (u ++ ":" ++ "manager") = false := by
    rintro u ⟨⟩
    exact ⟨by decide +kernel, by decide +kernel⟩
  obtain ⟨q, hq⟩ : ∃ q, compileText .standard .user text = .ok q := exists_ok (by decide +kernel)
  exact ⟨q, hq, hjoined, henclosed hurn⟩

/-- A list in place of an extension. -/
def listedManagers : Json :=
  .obj [(Urn.enterpriseUser, .arr [.obj [("manager",
    .obj [("value", .str "x"), ("displayName", .str "Jo")])]])]

/-- A registry of one extension with badges, which have values and types. -/
def badgesUnder (id name : String) : Registry :=
  Registry.core.extend ⟨.user, Schema.make id "Badges" "Badges of a user"
    [Attribute.listed name "The badges" (Schema.valueAttributes .string)], false⟩

/-- In parentheses the elements of a list are reached that stands in place of an extension, a URN
that makes a core schema with the name behind it is no obstacle, and one with a slash is. -/
theorem narrowed_disagrees :
    let manager := narrowedText (some Urn.enterpriseUser) "manager" "value pr" "displayName pr"
    let base := narrowedText (some Expression.coreBase) "User" "value pr" "type pr"
    let site := narrowedText (some "urn:example:site/badges") "badges" "value pr" "type pr"
    (ExtensionsApart .standard ∧
      (compileText .standard .user manager).toOption.map (·.holds listedManagers) = some false ∧
      (compileText .standard .user ("(" ++ manager ++ ")")).toOption.map
        (·.holds listedManagers) = some true) ∧
    (ExtensionsApart (badgesUnder Expression.coreBase "User") ∧
      (compileText (badgesUnder Expression.coreBase "User") .user base).toBool = false ∧
      (compileText (badgesUnder Expression.coreBase "User") .user
        ("(" ++ base ++ ")")).toBool = true) ∧
    (ExtensionsApart (badgesUnder "urn:example:site/badges" "badges") ∧
      (compileText (badgesUnder "urn:example:site/badges" "badges") .user site).toBool = true ∧
      (compileText (badgesUnder "urn:example:site/badges" "badges") .user
        ("(" ++ site ++ ")")).toBool = false) :=
  ⟨⟨.of_fronts (by decide +kernel), by decide +kernel, by decide +kernel⟩,
    ⟨.of_fronts (by decide +kernel), by decide +kernel, by decide +kernel⟩,
    .of_fronts (by decide +kernel), by decide +kernel, by decide +kernel⟩

end Roster
