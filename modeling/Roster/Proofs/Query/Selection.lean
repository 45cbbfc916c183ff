import Roster.Proofs.Expression.Brackets
import Roster.Proofs.Patch.Slots
import Roster.Proofs.Patch.Again
import Roster.Proofs.Query.Enclosed

/-!
The elements of a list that a value filter selects. As a query the selection holds of a resource
when it is left with any of them, and as a path it addresses them by their indices; both are
computed from one condition on the elements.
-/

namespace Roster

open Members Json

/-! ### A value in place of another -/

namespace Json

/-- The value with another one held for a name in the object that other names lead to. -/
def replaceAt (v : Json) (keys : List String) (name : String) (new : Json) : Json :=
  match keys, v with
  | [], .obj ms => .obj (putHeld ms name new)
  | key :: keys, .obj ms =>
    match find? ms key with
    | some inner => .obj (putHeld ms key (inner.replaceAt keys name new))
    | none => .obj ms
  | _, v => v

theorem follow?_replaceAt {keys : List String} {name : String} {v held : Json}
    (h : v.follow? keys name = some held) (new : Json) :
    (v.replaceAt keys name new).follow? keys name = some new := by
  induction keys generalizing v with
  | nil =>
    cases v with
    | obj ms => exact find?_putHeld_self ms name new
    | _ => cases h
  | cons key keys ih =>
    cases v with
    | obj ms =>
      obtain ⟨inner, hinner, h⟩ := Option.bind_eq_some_iff.mp h
      have hfound : find? ms key = some inner := hinner
      have hput := find?_putHeld_self ms key (inner.replaceAt keys name new)
      simpa [replaceAt, follow?, member?, members?, hfound, hput] using ih h
    | _ => cases h

end Json

/-! ### The condition on the elements -/

/-- Steps into extensions and a selection of what is held for a name there. -/
def selectionQuery (container : List String) (name : String) (c : Condition) : Query :=
  ⟨container.map .extension ++ [.attribute name (some c)]⟩

/-- The query holds when an element of what is held at the place satisfies the condition. -/
theorem holds_selectionQuery (container : List String) (name : String) (c : Condition) (v : Json) :
    (selectionQuery container name c).holds v =
      (((v.follow? container name).map flatten).getD []).any c.holds := by
  induction container generalizing v with
  | nil =>
    rw [selectionQuery, List.map_nil, List.nil_append, Query.holds_selection]
    simp [Condition.holds, Json.collect, follow?]
  | cons key keys ih =>
    have hfirst : (selectionQuery (key :: keys) name c).holds v =
        (v.member? key).any (selectionQuery keys name c).holds :=
      Query.holds_extension v key (selectionQuery keys name c).steps
    rw [hfirst, follow?]
    cases v.member? key with
    | none => rfl
    | some inner => exact ih inner

theorem indices_ne_nil {c : Condition} {items : List Json} :
    c.indices 0 items ≠ [] ↔ items.any c.holds = true := by
  rw [List.any_eq_true]
  constructor
  · intro hne
    obtain ⟨i, hi⟩ := List.exists_mem_of_ne_nil _ hne
    obtain ⟨j, v, -, hv, hholds⟩ := mem_indices.mp hi
    exact ⟨v, List.mem_of_getElem? hv, hholds⟩
  · rintro ⟨v, hv, hholds⟩
    obtain ⟨i, hi⟩ := List.mem_iff_getElem?.mp hv
    have hmem : i ∈ c.indices 0 items :=
      mem_indices.mpr ⟨i, v, (Nat.zero_add i).symm, hi, hholds⟩
    exact List.ne_nil_of_mem hmem

/-! ### Lists that a path names -/

/-- The names that lead to the attributes behind a URN or none, and these attributes. -/
def Registry.behind? (r : Registry) (kind : Kind) :
    Option String → Option (List String × List Attribute)
  | none => some ([], kind.attributes)
  | some urn => (r.extension? kind urn).map fun s => ([s.id], s.attributes)

/-- A name, by itself or behind the URN of an extension, is that of a list of complex values which
clients may write. A URN has no blanks, quotes, brackets and parentheses. -/
structure NamesList (r : Registry) (kind : Kind) (urn : Option String) (name : String)
    (container : List String) (a : Attribute) : Prop where
  scheme : ∀ u ∈ urn, isUrn u = true ∧ u.toList.all Expression.isLeadChar = true
  spelled : isAttributeName name.toList = true
  found : ∃ attributes, r.behind? kind urn = some (container, attributes) ∧
    findAttribute? attributes name = some a
  complex : a.type = .complex
  list : a.multiValued = true
  writable : a.isReadOnly = false

/-- The text of a path with a value filter behind the name. -/
def selectionText (urn : Option String) (name filter : String) : String :=
  (urn.map (· ++ ":")).getD "" ++ name ++ "[" ++ filter ++ "]"

theorem selectionText_toList (urn : Option String) (name filter : String) :
    (selectionText urn name filter).toList = Expression.schemaText urn ++
      (name.toList ++ '[' :: (filter.toList ++ [']'])) := by
  cases urn <;> simp [selectionText, Expression.schemaText]

namespace NamesList

variable {r : Registry} {kind : Kind} {urn : Option String} {name filter : String}
  {container : List String} {a : Attribute}

theorem extension (h : NamesList r kind urn name container a) :
    ∀ u ∈ urn, Expression.IsExtension r u := by
  rintro u rfl
  obtain ⟨hscheme, hlead⟩ := h.scheme u rfl
  obtain ⟨attributes, hbehind, -⟩ := h.found
  obtain ⟨s, hs, -⟩ := Option.map_eq_some_iff.mp hbehind
  refine ⟨?_, hscheme, hlead⟩
  obtain ⟨e, he, -⟩ := Option.map_eq_some_iff.mp hs
  have hname := List.find?_some he
  rw [Bool.and_eq_true] at hname
  exact List.any_eq_true.mpr ⟨e, List.mem_of_find?_eq_some he, hname.2⟩

/-- What stands in front of the name leads to one scope, whether it is compiled or resolved, and the
name is found there. -/
theorem exists_scope (h : NamesList r kind urn name container a) :
    ∃ scope : Scope, scope.find? kind name = some a ∧
      (∀ front next, CompilesTo r kind .resource (urn.map Segment.name).toList front next ↔
        front = container.map .extension ∧ next = scope) ∧
      ∀ (text : String) (resource : Json),
        (⟨(urn.map Segment.name).toList ++ [.selection name text]⟩ : Expression).resolve r kind
            resource =
          resolveSegments r kind
            (Expression.joinSegments ((urn.map Segment.name).toList ++ [.selection name text]))
            resource container.head? scope container [.selection name text] := by
  obtain ⟨attributes, hbehind, ha⟩ := h.found
  cases urn with
  | none =>
    cases hbehind
    exact ⟨.resource, ha, fun front next => compilesTo_nil, fun _ _ => rfl⟩
  | some u =>
    have hurn : isUrn u = true := (h.scheme u rfl).1
    obtain ⟨s, hs, hpair⟩ := Option.map_eq_some_iff.mp hbehind
    cases hpair
    refine ⟨.members s.attributes, ha, fun front next => ?_, fun text resource => ?_⟩
    · have hsingle : CompilesTo r kind .resource [.name u] front next ↔ ∃ step scope rest,
          (Segment.name u).Compiles r kind .resource step scope ∧
            CompilesTo r kind scope [] rest next ∧ front = step :: rest := compilesTo_cons
      rw [Option.map_some, Option.toList_some, hsingle]
      constructor
      · rintro ⟨step, scope, rest, hstep, hrest, rfl⟩
        obtain ⟨rfl, rfl⟩ := compilesTo_nil.mp hrest
        cases hstep with
        | extension _ hs' =>
          cases hs.symm.trans hs'
          exact ⟨rfl, rfl⟩
        | name hplain _ =>
          rw [hurn] at hplain
          cases hplain
      · rintro ⟨rfl, rfl⟩
        exact ⟨_, _, [], .extension hurn hs, .nil, rfl⟩
    · simp [Expression.resolve, Expression.normalized, hurn, hs]

/-- The segments of such a path are compiled to one selection. -/
theorem compile_iff (h : NamesList r kind urn name container a) {q : Query} :
    (⟨(urn.map Segment.name).toList ++ [.selection name filter]⟩ : Expression).compile r kind =
        .ok q ↔
      ∃ f c, Filter.parse filter = .ok f ∧ f.compile r kind (.members a.subAttributes) = .ok c ∧
        q = selectionQuery container a.name c := by
  obtain ⟨scope, hfind, hfront, -⟩ := h.exists_scope
  rw [Expression.compile_snoc rfl]
  constructor
  · rintro ⟨front, step, next, last, hbefore, hstep, hsteps⟩
    obtain ⟨rfl, rfl⟩ := (hfront front next).mp hbefore
    cases hstep with
    | selection hfound _ hread hinner =>
      cases hfind.symm.trans hfound
      obtain ⟨steps⟩ := q
      exact ⟨_, _, hread, hinner, congrArg Query.mk hsteps⟩
  · rintro ⟨f, c, hread, hinner, rfl⟩
    exact ⟨_, _, scope, _, (hfront _ _).mpr ⟨rfl, rfl⟩,
      .selection hfind h.complex hread hinner, rfl⟩

/-- They are resolved to the elements which the same condition selects. -/
theorem resolve_iff (h : NamesList r kind urn name container a) {resource : Json} {t : Target} :
    (⟨(urn.map Segment.name).toList ++ [.selection name filter]⟩ : Expression).resolve r kind
        resource = .ok t ↔
      ∃ f c, Filter.parse filter = .ok f ∧ f.compile r kind (.members a.subAttributes) = .ok c ∧
        t = ⟨Expression.joinSegments ((urn.map Segment.name).toList ++ [.selection name filter]),
          container, a.name, some a, a.subAttributes,
          .elements (c.indices 0 (((resource.follow? container a.name).bind items?).getD [])),
          none, some f, container.head?⟩ := by
  obtain ⟨scope, hfind, -, hresolve⟩ := h.exists_scope
  rw [hresolve]
  simp only [resolveSegments, Segment.isSchemaUrn, Segment.name?, hfind, h.writable, h.list,
    Bool.false_eq_true, Bool.not_true, Bool.false_and, if_false]
  cases hread : Filter.parse filter with
  | error fault => simp [Segment.filterOrError, Segment.parsedFilter, Segment.filter?, hread,
      bind, Except.bind, Except.map]
  | ok f =>
    cases hinner : f.compile r kind (.members a.subAttributes) with
    | error fault => simp [Segment.filterOrError, Segment.parsedFilter, Segment.filter?, hread,
        Attribute.select, hinner, bind, Except.bind, Except.map]
    | ok c => simp [Segment.filterOrError, Segment.parsedFilter, Segment.filter?, hread,
        Attribute.select, Attribute.lastSub, hinner, bind, Except.bind, Except.map, eq_comm]

end NamesList

/-! ### Agreement -/

/-- A query and a target have one list of elements before them: the target has the indices of some
of them, and the query holds when there are any. Each element decides by itself. -/
structure SelectsAlike (q : Query) (t : Target) (resource : Json) (container : List String)
    (name : String) (items : List Json) (indices : List Nat) : Prop where
  place : t.container = container ∧ t.name = name
  selection : t.selection = .elements indices
  holds : q.holds resource = true ↔ indices ≠ []
  each : ∀ i, i ∈ indices ↔ ∃ v, items[i]? = some v ∧
    q.holds (resource.replaceAt container name (.arr [v])) = true
  alone : ∀ v ∈ items, v.items? = none → q.holds (resource.replaceAt container name v) =
    q.holds (resource.replaceAt container name (.arr [v]))

section

variable {r : Registry} {kind : Kind} {urn : Option String} {name filter path : String}
  {container : List String} {a : Attribute} {resource : Json} {c : Condition} {t : Target}

theorem resolveText_eq_ok : resolveText r kind path resource = .ok t ↔
    ∃ e, Expression.parse r path = .ok e ∧ e.resolve r kind resource = .ok t := by
  rw [← bind_eq_ok, resolveText]
  generalize (Expression.parse r path >>= fun e => e.resolve r kind resource) = found
  cases found <;> simp [liftFault]

/-- The query of a condition selects like the target of the same condition. -/
theorem selectionQuery_selectsAlike {held : Option (List Json)}
    (hheld : resource.follow? container name = held.map .arr) (hplace : t.container = container)
    (hname : t.name = name) (hselection : t.selection = .elements (c.indices 0 (held.getD []))) :
    SelectsAlike (selectionQuery container name c) t resource container name (held.getD [])
      (c.indices 0 (held.getD [])) := by
  have hall : (selectionQuery container name c).holds resource = (held.getD []).any c.holds := by
    rw [holds_selectionQuery, hheld]
    cases held <;> rfl
  have hput {v : Json} (hv : v ∈ held.getD []) (new : Json) :
      (selectionQuery container name c).holds (resource.replaceAt container name new) =
        new.flatten.any c.holds := by
    obtain ⟨items, rfl⟩ : ∃ items, held = some items := by
      cases held with
      | none => cases hv
      | some items => exact ⟨items, rfl⟩
    rw [holds_selectionQuery, follow?_replaceAt hheld new]
    rfl
  refine ⟨⟨hplace, hname⟩, hselection, ?_, fun i => ?_, fun v hv hflat => ?_⟩
  · rw [hall, indices_ne_nil]
  · rw [mem_indices]
    constructor
    · rintro ⟨j, v, rfl, hv, hholds⟩
      rw [Nat.zero_add]
      refine ⟨v, hv, ?_⟩
      rw [hput (List.mem_of_getElem? hv)]
      simpa [flatten] using hholds
    · rintro ⟨v, hv, hholds⟩
      rw [hput (List.mem_of_getElem? hv)] at hholds
      exact ⟨i, v, (Nat.zero_add i).symm, hv, by simpa [flatten] using hholds⟩
  · rw [hput hv, hput hv]
    cases v with
    | arr items => cases hflat
    | _ => rfl

/-- A value filter behind the name of a list selects the same of it as a query and as a path. The
text between the brackets may be any that does not close them itself, as no text of a filter does:
`Expression.isInner_of_parse`. -/
theorem selection_agrees (h : NamesList r kind urn name container a)
    (hfilter : Expression.isInner filter.toList = true) {held : Option (List Json)}
    (hheld : resource.follow? container a.name = held.map .arr) :
    let text := selectionText urn name filter
    let query := (Expression.parse r text).bind (·.compile r kind)
    let target := resolveText r kind text resource
    ((∃ q, query = .ok q) ↔ ∃ t, target = .ok t) ∧
      ∀ q t, query = .ok q → target = .ok t →
        ∃ indices, SelectsAlike q t resource container a.name (held.getD []) indices := by
  intro text query target
  have hquery {q : Query} : query = .ok q ↔
      ∃ e, Expression.parse r text = .ok e ∧ e.compile r kind = .ok q := bind_eq_ok
  have hread {e : Expression} (he : Expression.parse r text = .ok e) :=
    Expression.parse_brackets (selectionText_toList urn name filter) h.extension h.spelled
      hfilter he
  constructor
  · constructor
    · rintro ⟨q, hq⟩
      obtain ⟨e, he, hcompile⟩ := hquery.mp hq
      obtain ⟨g, -, rfl⟩ := hread he
      obtain ⟨f, c, hf, hc, -⟩ := h.compile_iff.mp hcompile
      exact ⟨_, resolveText_eq_ok.mpr ⟨_, he, h.resolve_iff.mpr ⟨f, c, hf, hc, rfl⟩⟩⟩
    · rintro ⟨t, ht⟩
      obtain ⟨e, he, hresolve⟩ := resolveText_eq_ok.mp ht
      obtain ⟨g, -, rfl⟩ := hread he
      obtain ⟨f, c, hf, hc, -⟩ := h.resolve_iff.mp hresolve
      exact ⟨_, hquery.mpr ⟨_, he, h.compile_iff.mpr ⟨f, c, hf, hc, rfl⟩⟩⟩
  · intro q t hq ht
    obtain ⟨e, he, hcompile⟩ := hquery.mp hq
    obtain ⟨e', he', hresolve⟩ := resolveText_eq_ok.mp ht
    cases he.symm.trans he'
    obtain ⟨g, -, rfl⟩ := hread he
    obtain ⟨f, c, hf, hc, rfl⟩ := h.compile_iff.mp hcompile
    obtain ⟨f', c', hf', hc', rfl⟩ := h.resolve_iff.mp hresolve
    cases hf.symm.trans hf'
    cases hc.symm.trans hc'
    refine ⟨_, selectionQuery_selectsAlike hheld rfl rfl ?_⟩
    rw [hheld]
    cases held <;> rfl

/-- Two mail addresses, held under a name in another case. -/
def mailed : Json :=
  .obj [("Emails", .arr [.obj [("type", .str "home")], .obj [("type", .str "work")]])]

/-- The second of two mail addresses is for work. -/
theorem selection_agrees_work :
    let items := [.obj [("type", .str "home")], .obj [("type", .str "work")]]
    ∃ a q t, NamesList .standard .user none "emails" [] a ∧
      Expression.isInner "type eq \"work\"".toList = true ∧
      mailed.follow? [] a.name = some (.arr items) ∧
      (Expression.parse .standard "emails[type eq \"work\"]").bind (·.compile .standard .user) =
        .ok q ∧
      resolveText .standard .user "emails[type eq \"work\"]" mailed = .ok t ∧
      SelectsAlike q t mailed [] a.name items [1] := by
  intro items
  have hfind : (findAttribute? Kind.user.attributes "emails").any (fun a =>
      decide (a.type = .complex ∧ a.multiValued = true ∧ a.isReadOnly = false ∧
        a.name = "emails")) = true := by decide +kernel
  obtain ⟨a, ha, hdecided⟩ := Option.any_eq_true _ _ |>.mp hfind
  obtain ⟨hcomplex, hlist, hwritable, hname⟩ := of_decide_eq_true hdecided
  have hnames : NamesList .standard .user none "emails" [] a :=
    ⟨by simp, by decide, ⟨_, rfl, ha⟩, hcomplex, hlist, hwritable⟩
  obtain ⟨f, hf⟩ : ∃ f, Filter.parse "type eq \"work\"" = .ok f := exists_ok (by decide +kernel)
  have hinner := Expression.isInner_of_parse hf
  have hheld : mailed.follow? [] a.name = (some items).map .arr := by
    rw [hname]
    rfl
  obtain ⟨hboth, hagree⟩ := selection_agrees hnames hinner hheld
  obtain ⟨t, ht⟩ : ∃ t, resolveText .standard .user "emails[type eq \"work\"]" mailed = .ok t :=
    exists_ok (by decide +kernel)
  obtain ⟨q, hq⟩ := hboth.mpr ⟨t, ht⟩
  obtain ⟨indices, hindices⟩ := hagree q t hq ht
  have hselection : t.selection = .elements [1] := by
    have hany : (resolveText .standard .user "emails[type eq \"work\"]" mailed).toOption.any
        (fun t => decide (t.selection = .elements [1])) = true := by decide +kernel
    rw [ht] at hany
    exact of_decide_eq_true hany
  cases hselection.symm.trans hindices.selection
  exact ⟨a, q, t, hnames, hinner, hheld, hq, ht, hindices⟩

end

end Roster
