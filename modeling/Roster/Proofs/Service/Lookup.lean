import Roster.Proofs.Query.Presence
import Roster.Proofs.Service.PutAgain
import Roster.Proofs.Service.UserNames
import Roster.Proofs.Text.Sigma

/-!
Users looked up by name. A search of the store ignores the case of ASCII letters, a filter that of
all letters. What the search finds is listed, and for a name that shares its lower case with no
other name the two agree, so that at most one user is listed.
-/

namespace Roster

/-- The search for a user by name. -/
def Probe.ofUserName (v : String) : Probe := ⟨.user, "userName", v, false, none⟩

/-- The comparison of the names of users with a text. -/
def Filter.ofUserName (v : String) : Filter := .compare (.ofName "userName") .eq (.text v)

/-- What the comparison is compiled to. -/
def Query.ofUserName (v : String) : Query := ⟨[.test (.compare ["userName"] .eq (.text v) false)]⟩

/-! ### Reading the comparison -/

theorem Filter.toText_ofUserName (v : String) : (Filter.ofUserName v).toText.toList =
    "userName".toList ++ ' ' :: 'e' :: 'q' :: ' ' :: (Literal.text v).toText.toList := by
  simp [ofUserName, toText, Expression.toText_ofName, CompareOp.word]

theorem Filter.legible_ofUserName (v : String) : Expression.Legible (.ofUserName v) where
  wellFormed := ⟨.ofName (by decide), trivial⟩
  bracketed := rfl
  depth := Nat.zero_le _
  names := by simp [paths, ofUserName, AttributePath.ofName]; decide

theorem Filter.compile_ofUserName (r : Registry) (v : String) :
    (Filter.ofUserName v).compile r .user .resource =
      .ok (.compare ["userName"] .eq (.text v) false) := by
  rfl

/-- The comparison is read back from its text, and compiled. -/
theorem Expression.compile_ofUserName (r : Registry) {v : String}
    (hlen : utf8Length (Filter.ofUserName v).toText.toList ≤ Filter.greatestLength) :
    ∃ e, parse r (Filter.ofUserName v).toText = .ok e ∧
      e.compile r .user = .ok (Query.ofUserName v) := by
  have hlegible := Filter.legible_ofUserName v
  refine ⟨⟨[.test (Filter.ofUserName v).toText]⟩, (parse_toText hlegible.wellFormed hlen).mpr ?_,
    (compile_single hlegible.wellFormed).mpr
      ⟨hlegible.parse_toText hlen, _, Filter.compile_ofUserName r v, rfl⟩⟩
  exact parseTrimmed_named hlegible hlen (by decide) (by decide) (Filter.toText_ofUserName v)

/-! ### What is found and what is listed -/

/-- Every stored user has a text as its name. -/
def Store.NamesUsers (st : Store) : Prop :=
  ∀ m ∈ st.users, ∃ name, m.2.resource.member? "userName" = some (.str name)

variable {user : Json} {name v id : String} {st : Store}

theorem Query.holds_ofUserName (h : user.member? "userName" = some (.str name)) :
    (Query.ofUserName v).holds user = true ↔ lowercase name.toList = lowercase v.toList := by
  have hcollect : Json.collect [user] ["userName"] = [.str name] := by
    simp [Json.collect, h, Json.flatten]
  rw [ofUserName, Query.holds_test, Condition.holds, hcollect, ← CompareOp.admits_eq_orderText]
  simp [compareAny, TypedValue.test, CompareOp.isSubstring, TypedValue.orderFrom?, Json.string?,
    comparedText]

theorem Probe.finds_ofUserName (h : user.member? "userName" = some (.str name)) :
    (Probe.ofUserName v).finds id user = sameName name v := by
  simp [finds, ofUserName, h, Json.string?]

theorem Store.find?_isSome {p : Probe} : (st.find? p).isSome = true ↔
    ∃ m ∈ st.entries p.kind, p.finds m.1 m.2.resource = true := by
  simp [find?, List.findSome?_isSome_iff]

theorem Store.list_ne_nil {kind : Kind} {q : Query} : st.list kind (some q) ≠ [] ↔
    ∃ m ∈ st.entries kind, q.holds m.2.resource = true := by
  have hlisted : st.list kind (some q) ≠ [] ↔
      ∃ e, (∃ id, (id, e) ∈ st.entries kind) ∧ q.holds e.resource = true := by
    simp [list, resources, List.filter_eq_nil_iff, List.mem_mergeSort]
  rw [hlisted]
  constructor
  · rintro ⟨e, ⟨id, he⟩, hholds⟩
    exact ⟨(id, e), he, hholds⟩
  · rintro ⟨⟨id, e⟩, he, hholds⟩
    exact ⟨e, ⟨id, he⟩, hholds⟩

/-- The search finds a user whose name is the text but for the case of ASCII letters. -/
theorem Store.find?_ofUserName (h : st.NamesUsers) :
    (st.find? (.ofUserName v)).isSome = true ↔ ∃ m ∈ st.users, ∃ name,
      m.2.resource.member? "userName" = some (.str name) ∧ sameName name v = true := by
  rw [Store.find?_isSome]
  constructor
  · rintro ⟨m, hm, hfinds⟩
    obtain ⟨name, hname⟩ := h m hm
    exact ⟨m, hm, name, hname, (Probe.finds_ofUserName hname).symm.trans hfinds⟩
  · rintro ⟨m, hm, name, hname, hsame⟩
    exact ⟨m, hm, (Probe.finds_ofUserName hname).trans hsame⟩

/-- The filter lists a user whose name has the lower case of the text. -/
theorem Store.list_ofUserName (h : st.NamesUsers) :
    st.list .user (some (.ofUserName v)) ≠ [] ↔ ∃ m ∈ st.users, ∃ name,
      m.2.resource.member? "userName" = some (.str name) ∧
        lowercase name.toList = lowercase v.toList := by
  rw [Store.list_ne_nil]
  constructor
  · rintro ⟨m, hm, hholds⟩
    obtain ⟨name, hname⟩ := h m hm
    exact ⟨m, hm, name, hname, (Query.holds_ofUserName hname).mp hholds⟩
  · rintro ⟨m, hm, name, hname, hlower⟩
    exact ⟨m, hm, (Query.holds_ofUserName hname).mpr hlower⟩

/-- What the search finds is listed. -/
theorem Store.list_of_find? (h : st.NamesUsers)
    (hfound : (st.find? (.ofUserName v)).isSome = true) :
    st.list .user (some (.ofUserName v)) ≠ [] := by
  obtain ⟨m, hm, name, hname, hsame⟩ := (Store.find?_ofUserName h).mp hfound
  exact (Store.list_ofUserName h).mpr ⟨m, hm, name, hname, lowercase_congr hsame⟩

/-- A store that holds one user. -/
def Store.single (id : String) (user : Json) : Store := ⟨[(id, ⟨0, user⟩)], [], 1⟩

/-- The search and the filter agree on every store exactly if the text shares its lower case with
no other text. -/
theorem Store.find?_iff_list : (∀ st : Store, st.NamesUsers →
    ((st.find? (.ofUserName v)).isSome = true ↔ st.list .user (some (.ofUserName v)) ≠ [])) ↔
      Unshared v := by
  constructor
  -- a user of the other name, alone in a store, is listed
  · intro hagree name hlower
    have hmember : (Json.obj [("userName", .str name)]).member? "userName" = some (.str name) :=
      rfl
    have hnames : (single "u1" (.obj [("userName", .str name)])).NamesUsers := by
      intro m hm
      obtain rfl := List.mem_singleton.mp hm
      exact ⟨name, hmember⟩
    have hlisted := (Store.list_ofUserName (v := v) hnames).mpr
      ⟨_, List.mem_singleton_self _, name, hmember, hlower⟩
    obtain ⟨m, hm, other, hother, hsame⟩ :=
      (Store.find?_ofUserName hnames).mp ((hagree _ hnames).mpr hlisted)
    obtain rfl := List.mem_singleton.mp hm
    cases hmember.symm.trans hother
    exact hsame
  · intro halone st hnames
    refine ⟨Store.list_of_find? hnames, fun hlisted => ?_⟩
    obtain ⟨m, hm, name, hname, hlower⟩ := (Store.list_ofUserName hnames).mp hlisted
    exact (Store.find?_ofUserName hnames).mpr ⟨m, hm, name, hname, halone name hlower⟩

/-- Of users with names apart, at most one has the lower case of such a text. -/
theorem Store.UserNames.listed_once (h : st.UserNames) (halone : Unshared v) {other : String}
    {w : Json} (hu : st.get? .user id = some user) (hw : st.get? .user other = some w)
    (hlisted : (Query.ofUserName v).holds user = true)
    (hlisted' : (Query.ofUserName v).holds w = true) : id = other := by
  obtain ⟨name, hname⟩ := h.named id user hu
  obtain ⟨otherName, hother⟩ := h.named other w hw
  by_contra hne
  have happart := h.apart id other user w name otherName hu hw hname.given hother.given hne
  have hsame := sameName_trans (halone name ((Query.holds_ofUserName hname.member?).mp hlisted))
    ((sameName_comm _ _).trans
      (halone otherName ((Query.holds_ofUserName hother.member?).mp hlisted')))
  rw [hsame] at happart
  cases happart

namespace Service

/-- The comparison of user names with a text that is not too long is read and compiled. What the
search for the text finds is then listed. The two agree on every store exactly if the text shares
its lower case with no other one, as texts of unpaired characters do, and then no store that changes
lead to has two users listed. -/
theorem lookup_userName (r : Registry) (v : String)
    (hlen : utf8Length (Filter.ofUserName v).toText.toList ≤ Filter.greatestLength) :
    ∃ e q, Expression.parse r (Filter.ofUserName v).toText = .ok e ∧ e.compile r .user = .ok q ∧
      (∀ st : Store, st.NamesUsers → (st.find? (.ofUserName v)).isSome = true →
        st.list .user (some q) ≠ []) ∧
      ((∀ st : Store, st.NamesUsers →
        ((st.find? (.ofUserName v)).isSome = true ↔ st.list .user (some q) ≠ [])) ↔
          Unshared v) ∧
      ((∀ c ∈ v.toList, isUnpaired c = true) → Unshared v) ∧
      (Unshared v → ∀ (s : Service) (actions : List Action) id user other w,
        (s.performAll .empty actions).get? .user id = some user →
          (s.performAll .empty actions).get? .user other = some w →
            q.holds user = true → q.holds w = true → id = other) := by
  obtain ⟨e, hread, hcompile⟩ := Expression.compile_ofUserName r hlen
  refine ⟨e, .ofUserName v, hread, hcompile, fun st hnames => Store.list_of_find? hnames,
    Store.find?_iff_list, unshared_of_unpaired, ?_⟩
  intro halone s actions id user other w hu hw hlisted hlisted'
  exact (performAll_userNames s actions).listed_once halone hu hw hlisted hlisted'

/-- Creates a user of a name. -/
def enroll (id name : String) : Action :=
  .create .user (.obj [("schemas", .arr [.str Urn.user]), ("userName", .str name)]) "" id default

/-- A name without letters in pairs is looked up and listed alike. -/
theorem lookup_userName_ascii : ∃ e q, Expression.parse .standard "userName eq \"jane\"" = .ok e ∧
    e.compile .standard .user = .ok q ∧
      (∀ st : Store, st.NamesUsers →
        ((st.find? (.ofUserName "jane")).isSome = true ↔ st.list .user (some q) ≠ [])) := by
  have hlen : utf8Length (Filter.ofUserName "jane").toText.toList ≤ Filter.greatestLength := by
    decide
  obtain ⟨e, q, hread, hcompile, -, hagree, halone, -⟩ := lookup_userName .standard "jane" hlen
  exact ⟨e, q, hread, hcompile, hagree.mpr (halone (List.all_eq_true.mp (by decide)))⟩

/-- A user whose name is a small letter beyond ASCII is not found by the capital, but listed. So the
capital is taken as another name, and both users are listed. -/
theorem lookup_userName_accented :
    let one := spelledService.performAll .empty [enroll "u1" "é"]
    let both := spelledService.perform one (enroll "u2" "É")
    Expression.parse .standard "userName eq \"É\"" = .ok ⟨[.test "userName eq \"É\""]⟩ ∧
      (⟨[.test "userName eq \"É\""]⟩ : Expression).compile .standard .user =
        .ok (.ofUserName "É") ∧
      (one.find? (.ofUserName "É")).isSome = false ∧
      one.list .user (some (.ofUserName "É")) ≠ [] ∧
      (both.get? .user "u1").any (Query.ofUserName "É").holds = true ∧
      (both.get? .user "u2").any (Query.ofUserName "É").holds = true := by
  refine ⟨by decide +kernel, by decide +kernel, by decide +kernel, Store.list_ne_nil.mpr ?_,
    by decide +kernel, by decide +kernel⟩
  decide +kernel

end Service

end Roster
