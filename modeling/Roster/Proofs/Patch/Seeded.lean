import Roster.Proofs.Patch.Selected
import Roster.Proofs.Query.Conjunction
import Roster.Proofs.Query.Typed

/-! Additions under a value filter that selects nothing. Where the filter is a conjunction of
equalities, the list gets an element that has the values which the filter asks for, so that the same
filter finds this element from then on, and no other. -/

namespace Roster

open Members Json

/-! ### Members that are checked one by one -/

section

variable {owner : String} {definitions : List Attribute} {pairs : List (String × Json)}
  {ms members : Members Json} {m : String × Json} {d : Attribute}

/-- Each member that a check leaves is one that was there, under its canonical name. -/
theorem checkPairs_subset (h : checkPairs owner definitions ms = .ok pairs) :
    ∀ p ∈ pairs, ∃ m ∈ ms, ∃ d, findAttribute? definitions m.1 = some d ∧ d.name = p.1 ∧
      checkValue d m.2 = .ok p.2 := by
  induction ms generalizing pairs with
  | nil =>
    cases h
    simp
  | cons m rest ih =>
    obtain ⟨key, v⟩ := m
    rw [checkPairs_cons] at h
    split at h
    · cases h
    · rename_i d hd
      have hrest : ∀ {pairs}, checkPairs owner definitions rest = .ok pairs → ∀ p ∈ pairs,
          ∃ m ∈ (key, v) :: rest, ∃ d, findAttribute? definitions m.1 = some d ∧ d.name = p.1 ∧
            checkValue d m.2 = .ok p.2 := fun h p hp => by
        obtain ⟨m, hm, hfound⟩ := ih h p hp
        exact ⟨m, List.mem_cons_of_mem _ hm, hfound⟩
      split_ifs at h
      · exact hrest h
      · obtain ⟨w, hw, h⟩ := bind_eq_ok.mp h
        obtain ⟨more, hmore, h⟩ := bind_eq_ok.mp h
        cases h
        exact List.forall_mem_cons.mpr
          ⟨⟨_, List.mem_cons_self, d, hd, rfl, hw⟩, hrest hmore⟩

/-- A member that clients may write, and that is not null, comes out of a check. -/
theorem mem_checkPairs (h : checkPairs owner definitions ms = .ok pairs) (hm : m ∈ ms)
    (hd : findAttribute? definitions m.1 = some d) (hwritable : d.isReadOnly = false)
    (hnull : m.2.isNull = false) : ∃ w, checkValue d m.2 = .ok w ∧ (d.name, w) ∈ pairs := by
  induction ms generalizing pairs with
  | nil => cases hm
  | cons head rest ih =>
    obtain ⟨key, v⟩ := head
    rw [checkPairs_cons] at h
    rcases List.mem_cons.mp hm with rfl | hm
    · rw [hd] at h
      simp only [hwritable, hnull, Bool.or_self, Bool.false_eq_true, if_false] at h
      obtain ⟨w, hw, h⟩ := bind_eq_ok.mp h
      obtain ⟨more, -, h⟩ := bind_eq_ok.mp h
      cases h
      exact ⟨w, hw, List.mem_cons_self⟩
    · split at h
      · cases h
      · split_ifs at h
        · exact ih h hm
        · obtain ⟨_, -, h⟩ := bind_eq_ok.mp h
          obtain ⟨more, hmore, h⟩ := bind_eq_ok.mp h
          cases h
          obtain ⟨w, hw, hmem⟩ := ih hmore hm
          exact ⟨w, hw, List.mem_cons_of_mem _ hmem⟩

/-- Members of different names, in whatever case, have different names after a check. -/
theorem nodup_checkPairs (h : checkPairs owner definitions ms = .ok pairs)
    (hapart : ms.Pairwise fun m n => sameName m.1 n.1 = false) : (keys pairs).Nodup := by
  induction ms generalizing pairs with
  | nil =>
    cases h
    exact List.nodup_nil
  | cons head rest ih =>
    obtain ⟨key, v⟩ := head
    obtain ⟨hfirst, hrest⟩ := List.pairwise_cons.mp hapart
    rw [checkPairs_cons] at h
    split at h
    · cases h
    · rename_i d hd
      split_ifs at h
      · exact ih h hrest
      · obtain ⟨w, hw, h⟩ := bind_eq_ok.mp h
        obtain ⟨more, hmore, h⟩ := bind_eq_ok.mp h
        cases h
        refine List.nodup_cons.mpr ⟨fun hmem => ?_, ih hmore hrest⟩
        obtain ⟨p, hp, hname⟩ := List.mem_map.mp hmem
        obtain ⟨n, hn, d', hd', hname', -⟩ := checkPairs_subset hmore p hp
        -- two members of one definition have one name
        have hkey : sameName d.name key = true := findAttribute?_sameName hd
        have hone : d'.name = d.name := hname'.trans hname
        have hother : sameName d.name n.1 = true := hone ▸ findAttribute?_sameName hd'
        rw [sameName_comm] at hkey
        simpa [hfirst n hn] using sameName_trans hkey hother

/-- Of members with different names each is found, with its checked value, under the canonical
name. -/
theorem get?_checkMembers (h : checkMembers owner definitions (.obj ms) = .ok members)
    (hapart : ms.Pairwise fun m n => sameName m.1 n.1 = false) (hm : m ∈ ms)
    (hd : findAttribute? definitions m.1 = some d) (hwritable : d.isReadOnly = false)
    (hnull : m.2.isNull = false) :
    ∃ w, checkValue d m.2 = .ok w ∧ Members.get? members d.name = some w := by
  obtain ⟨pairs, hpairs, rfl⟩ := map_eq_ok.mp h
  obtain ⟨w, hw, hmem⟩ := mem_checkPairs hpairs hm hd hwritable hnull
  exact ⟨w, hw, get?_of_mem (sorted_ofList pairs)
    ((mem_ofList (nodup_checkPairs hpairs hapart)).mpr hmem)⟩

theorem checkMembers_subset (h : checkMembers owner definitions (.obj ms) = .ok members) :
    ∀ p ∈ members, ∃ m ∈ ms, ∃ d, findAttribute? definitions m.1 = some d ∧ d.name = p.1 ∧
      checkValue d m.2 = .ok p.2 := by
  obtain ⟨pairs, hpairs, rfl⟩ := map_eq_ok.mp h
  exact forall_ofList (checkPairs_subset hpairs)

end

/-! ### Literals as values -/

section

variable {d : Attribute} {l : Literal} {literal : TypedValue} {type : AttributeType} {w : Json}

/-- The JSON value of a literal that is read at a type is neither null nor a list. -/
theorem Literal.toJson_scalar (hd : type ≠ .decimal) (hnull : l ≠ .null)
    (ht : l.typed .eq type = .ok literal) :
    l.toJson.isNull = false ∧ l.toJson.flatten = [l.toJson] := by
  cases l with
  | null => exact absurd rfl hnull
  | text s => exact ⟨rfl, rfl⟩
  | bool b => exact ⟨rfl, rfl⟩
  | number q =>
    cases type with
    | integer =>
      simp only [Literal.typed] at ht
      split_ifs at ht with hwhole
      simp only [Literal.toJson, hwhole, if_true]
      cases signedWord? q.truncate <;> exact ⟨rfl, rfl⟩
    | decimal => exact absurd rfl hd
    | _ => cases ht

/-- A checked value that is not complex is the admitted one, or a list of it alone. -/
theorem checkValue_scalar {v : Json} (hc : d.type ≠ .complex) (hv : v.flatten = [v])
    (h : checkValue d v = .ok w) :
    ∃ y, d.type.admit? v = some y ∧ (w = .arr [y] ∨ w = y) ∧ w.flatten = [y] := by
  unfold checkValue at h
  split_ifs at h
  · obtain ⟨items, hitems, rfl⟩ := map_eq_ok.mp h
    rw [checkElements, hv, checkItems] at hitems
    obtain ⟨y, hy, hitems⟩ := bind_eq_ok.mp hitems
    cases hitems
    rw [checkSingle_of_ne_complex hc, checkScalar_eq_ok] at hy
    exact ⟨y, hy, .inl rfl, rfl⟩
  · refine ⟨w, ?_, .inr rfl, ?_⟩
    · rwa [checkSingle_of_ne_complex hc, checkScalar_eq_ok] at h
    · have hself := checkSingle_checked v h
      cases w with
      | arr items => exact absurd hself (checkSingle_arr d items _)
      | _ => rfl

/-- A literal whose value is admitted as true is true. -/
theorem Literal.typed_true (ht : l.typed .eq type = .ok literal) (hnull : l ≠ .null)
    (ha : type.admit? l.toJson = some (.bool true)) : literal = .bool true := by
  -- only booleans are admitted as such
  obtain rfl : type = .boolean := by
    cases type with
    | boolean => rfl
    | integer =>
      simp only [AttributeType.admit?] at ha
      split at ha <;> cases ha
    | dateTime =>
      obtain ⟨s, -, ha⟩ := Option.bind_eq_some_iff.mp ha
      obtain ⟨_, -, ha⟩ := Option.map_eq_some_iff.mp ha
      cases ha
    | _ => simp [AttributeType.admit?] at ha
  cases l with
  | null => exact absurd rfl hnull
  | bool b =>
    cases ht
    cases ha
    rfl
  | _ => cases ht

end

/-! ### The new element -/

/-- Equalities on different sub-attributes which clients may write, apart from one more. None of
these is complex or a decimal number. -/
structure SeedsApart (a : Attribute) (name : String) (tests : List (String × Literal)) : Prop where
  apart : tests.Pairwise fun p q => sameName p.1 q.1 = false
  others : ∀ p ∈ tests, sameName p.1 name = false
  simple : ∀ p ∈ tests, ∀ d, a.subAttribute? p.1 = some d →
    d.isReadOnly = false ∧ d.type ≠ .complex ∧ d.type ≠ .decimal

/-- The members of a new element before they are checked. -/
def seeded (tests : List (String × Literal)) (name : String) (value : Json) : Members Json :=
  Members.insert (Members.ofList (tests.map fun p => (p.1, p.2.toJson))) name value

section

variable {a sub : Attribute} {name : String} {value element : Json}
  {tests : List (String × Literal)} {m : String × Json}

theorem SeedsApart.congr {other : String} (h : SeedsApart a name tests)
    (hs : sameName name other = true) : SeedsApart a other tests where
  apart := h.apart
  others p hp := by
    cases hsame : sameName p.1 other with
    | false => rfl
    | true =>
      rw [sameName_comm] at hs
      simpa [h.others p hp] using sameName_trans hsame hs
  simple := h.simple

theorem SeedsApart.mem_seeded (h : SeedsApart a name tests) :
    m ∈ seeded tests name value ↔ m = (name, value) ∨ ∃ p ∈ tests, m = (p.1, p.2.toJson) := by
  have hnodup : (keys (tests.map fun p => (p.1, p.2.toJson))).Nodup := by
    rw [keys, List.map_map]
    exact List.pairwise_map.mpr (h.apart.imp fun hpq => ne_of_not_same hpq)
  rw [seeded, mem_insert (sorted_ofList _), mem_ofList hnodup, List.mem_map]
  refine or_congr_right ⟨?_, ?_⟩
  · rintro ⟨⟨p, hp, rfl⟩, -⟩
    exact ⟨p, hp, rfl⟩
  · rintro ⟨p, hp, rfl⟩
    exact ⟨⟨p, hp, rfl⟩, ne_of_not_same (h.others p hp)⟩

theorem SeedsApart.seeded_apart (h : SeedsApart a name tests) :
    (seeded tests name value).Pairwise fun m n => sameName m.1 n.1 = false := by
  have hsorted : Sorted (seeded tests name value) := sorted_insert _ _ (sorted_ofList _)
  refine hsorted.imp_of_mem fun {m n} hm hn hlt => ?_
  have hne : m.1 ≠ n.1 := ne_of_lt hlt
  rcases h.mem_seeded.mp hm with rfl | ⟨p, hp, rfl⟩
  · rcases h.mem_seeded.mp hn with rfl | ⟨q, hq, rfl⟩
    · exact absurd rfl hne
    · rw [sameName_comm]
      exact h.others q hq
  · rcases h.mem_seeded.mp hn with rfl | ⟨q, hq, rfl⟩
    · exact h.others p hp
    · have hsymm : Std.Symm fun p q : String × Literal => sameName p.1 q.1 = false :=
        ⟨fun p q hpq => (sameName_comm q.1 p.1).trans hpq⟩
      exact h.apart.forall hp hq fun heq => hne (by rw [heq])

/-- A new element has the values that the tests ask for, and the value that is added. It has no
other members. -/
structure SeededWith (a sub : Attribute) (tests : List (String × Literal)) (new : Json)
    (members : Members Json) : Prop where
  added : Members.get? members sub.name = some new
  asked : ∀ p ∈ tests, ∀ d, a.subAttribute? p.1 = some d →
    ∃ w, checkValue d p.2.toJson = .ok w ∧ Members.get? members d.name = some w
  only : ∀ m ∈ members, m.1 = sub.name ∨ ∃ p ∈ tests, ∃ d, a.subAttribute? p.1 = some d ∧
    d.name = m.1 ∧ checkValue d p.2.toJson = .ok m.2

theorem seededWith_of_check (hc : a.type = .complex) (hd : Defined a.subAttributes sub)
    (h : SeedsApart a sub.name tests) (hvalue : value ≠ .null)
    (hscalar : ∀ p ∈ tests, p.2.toJson.isNull = false)
    (hcheck : checkSingle a (.obj (seeded tests sub.name value)) = .ok element) :
    ∃ members new, element = .obj members ∧ checkValue sub value = .ok new ∧
      SeededWith a sub tests new members := by
  rw [checkSingle_complex hc] at hcheck
  obtain ⟨members, hmembers, rfl⟩ := map_eq_ok.mp hcheck
  obtain ⟨new, hnew, hget⟩ := get?_checkMembers hmembers h.seeded_apart
    (h.mem_seeded.mpr (.inl rfl)) hd.found hd.writable
    (Json.isNull_of_ne hvalue)
  refine ⟨members, new, rfl, hnew, hget, fun p hp d hfound => ?_, fun m hm => ?_⟩
  · exact get?_checkMembers hmembers h.seeded_apart (h.mem_seeded.mpr (.inr ⟨p, hp, rfl⟩)) hfound
      (h.simple p hp d hfound).1 (hscalar p hp)
  · obtain ⟨n, hn, d, hfound, hname, hv⟩ := checkMembers_subset hmembers m hm
    rcases h.mem_seeded.mp hn with rfl | ⟨p, hp, rfl⟩
    · cases hd.found.symm.trans hfound
      exact .inl hname.symm
    · exact .inr ⟨p, hp, d, hfound, hname, hv⟩

/-- The literals of the tests can be read at the types of the sub-attributes. -/
def Readable (a : Attribute) (tests : List (String × Literal)) : Prop :=
  ∀ p ∈ tests, p.2 ≠ .null ∧ ∃ d literal, a.subAttribute? p.1 = some d ∧
    p.2.typed .eq d.type = .ok literal

namespace SeededWith

variable {new v : Json} {members : Members Json}

theorem meets (h : SeededWith a sub tests new members) (hs : SeedsApart a sub.name tests)
    (hread : Readable a tests) : ∀ p ∈ tests, Meets a.subAttributes (.obj members) p := by
  intro p hp
  obtain ⟨hnull, d, literal, hfound, htyped⟩ := hread p hp
  obtain ⟨-, hsimple, hdecimal⟩ := hs.simple p hp d hfound
  obtain ⟨w, hw, hget⟩ := h.asked p hp d hfound
  obtain ⟨y, hy, -, hflat⟩ :=
    checkValue_scalar hsimple (Literal.toJson_scalar hdecimal hnull htyped).2 hw
  refine ⟨d, literal, w, hfound, htyped, find?_of_get? hget, y, by simp [hflat], ?_⟩
  exact Literal.test_admitted hdecimal hnull htyped hy

/-- Where the new element is primary, no other one comes to meet the tests by demotion. -/
theorem of_demoted (h : SeededWith a sub tests new members) (hs : SeedsApart a sub.name tests)
    (hread : Readable a tests) (hprimary : (Json.obj members).isPrimary = true)
    (hone : SpelledOnce v.root "primary")
    (hv : ∀ p ∈ tests, Meets a.subAttributes v.demoted p) :
    ∀ p ∈ tests, Meets a.subAttributes v p := by
  cases hwas : v.isPrimary with
  | false => rwa [demoted_eq_self_iff.mpr hwas] at hv
  | true =>
    obtain ⟨x, hfind, hx⟩ : ∃ x, find? members "primary" = some x ∧ x.bool? = some true := by
      simpa [Json.isPrimary, Json.member?, Json.members?, Option.bind_eq_some_iff] using hprimary
    obtain rfl : x = .bool true := by cases x <;> simp_all [Json.bool?]
    obtain ⟨key, hkey, hmem⟩ := mem_of_find? hfind
    rcases h.only _ hmem with rfl | ⟨p, hp, d, hfound, hname, hcheck⟩
    · -- the value that is added marks the element, which the tests do not look at
      refine fun p hp => (hv p hp).of_demoted fun d hfound => ?_
      cases hsame : sameName d.name "primary" with
      | false => rfl
      | true =>
        have hname := findAttribute?_sameName hfound
        rw [sameName_comm] at hname
        simpa [hs.others p hp] using sameName_trans (sameName_trans hname hsame) hkey
    · -- a test asks for a primary value, which a demoted one is not
      obtain ⟨hnull, d', literal, hfound', htyped⟩ := hread p hp
      cases hfound.symm.trans hfound'
      obtain ⟨-, hsimple, hdecimal⟩ := hs.simple p hp d hfound
      obtain ⟨y, hy, hor, -⟩ :=
        checkValue_scalar hsimple (Literal.toJson_scalar hdecimal hnull htyped).2 hcheck
      rcases hor with heq | rfl
      · cases heq
      · obtain rfl := Literal.typed_true htyped hnull hy
        have hmarks : sameName d.name "primary" = true := by
          rw [hname, sameName_comm]
          exact hkey
        exact absurd (hv p hp) (not_meets_demoted hwas hone hfound hmarks htyped)

end SeededWith

end

/-! ### Additions under a filter that selects nothing -/

section

variable {r : Registry} {kind : Kind} {name s text path : String} {a sub : Attribute} {f : Filter}
  {c : Condition} {tests : List (String × Literal)} {items : List Json}
  {value element resource resource' : Json} {t : Target} {holder holder' : Members Json}

/-- A path whose filter is followed by a name addresses the sub-attribute of this name. -/
theorem SelectsBy.resolveText_sub (h : SelectsBy r kind name text a f c)
    (hpath : Expression.parse r path = .ok ⟨[.selection name text, .name s]⟩)
    (ht : Roster.resolveText r kind path resource = .ok t) :
    ∃ sub, a.subAttribute? s = some sub ∧ sub.isReadOnly = false ∧ t = selectionTarget
      (Expression.joinSegments [.selection name text, .name s]) a f c (some sub)
        (listAt resource.root a.name) := by
  obtain ⟨e, hparse, hresolve⟩ := resolveText_eq_ok.mp ht
  cases hpath.symm.trans hparse
  obtain ⟨found, hlast, rfl⟩ := h.resolve_iff.mp hresolve
  unfold Attribute.lastSub at hlast
  cases hsub : a.subAttribute? s with
  | none => simp [hsub] at hlast
  | some sub =>
    simp only [hsub, List.isEmpty_nil, Bool.not_true, Bool.false_eq_true, if_false] at hlast
    split_ifs at hlast with hro
    cases hlast
    exact ⟨sub, rfl, by simpa using hro, rfl⟩

/-- Behind values that a condition passes over, one that satisfies it is selected by its index. -/
theorem indices_snoc {v : Json} (hnone : ∀ v ∈ items, c.holds v = false) (hv : c.holds v = true)
    (start : Nat) : c.indices start (items ++ [v]) = [start + items.length] := by
  induction items generalizing start with
  | nil => simp [Condition.indices, hv]
  | cons u rest ih =>
    obtain ⟨hu, hrest⟩ := List.forall_mem_cons.mp hnone
    rw [List.cons_append, Condition.indices, hu, if_neg Bool.false_ne_true, ih hrest,
      List.length_cons, Nat.add_right_comm, Nat.add_assoc]

theorem addIn_unmatched (hnone : ∀ v ∈ items, c.holds v = false)
    (h : (selectionTarget path a f c (some sub) items).addIn a value holder = .ok holder') :
    ∃ element, (selectionTarget path a f c (some sub) items).seedElement a value = .ok element ∧
      holder' = putHeld holder a.name (.arr (appendElement (listAt holder a.name) element)) := by
  have hselection : (selectionTarget path a f c (some sub) items).selection = .elements [] := by
    rw [selectionTarget, indices_eq_nil hnone]
  simp only [Target.addIn, hselection] at h
  obtain ⟨element, helement, h⟩ := bind_eq_ok.mp h
  obtain ⟨_, hitems, rfl⟩ := editList_eq_ok h
  cases hitems
  exact ⟨element, helement, rfl⟩

theorem seedElement_eq_ok (hf : Conjunction f tests)
    (h : (selectionTarget path a f c (some sub) items).seedElement a value = .ok element) :
    (∀ p ∈ tests, p.2 ≠ .null) ∧
      checkSingle a (.obj (seeded tests sub.name value)) = .ok element := by
  simp only [Target.seedElement, selectionTarget, Option.bind_some] at h
  split at h
  · cases h
  · rename_i seeds hseeds
    obtain ⟨rfl, hvalues⟩ := hf.seeds_eq hseeds
    exact ⟨hvalues, h⟩

/-- An element satisfies a condition, and no value of a list comes to satisfy it along with the
element: neither one that is equal to it nor one that is demoted for it. -/
structure NewTo (c : Condition) (items : List Json) (element : Json) : Prop where
  holds : c.holds element = true
  equal : ∀ v ∈ items, v.same element = true → c.holds v = true
  demoted : element.isPrimary = true → ∀ v ∈ items, c.holds v.demoted = true → c.holds v = true

/-- The list with an element behind its values, which a primary one demotes. -/
def withElement (items : List Json) (element : Json) : List Json :=
  (if element.isPrimary then items.map Json.demoted else items) ++ [element]

theorem NewTo.appended (h : NewTo c items element) (hnone : ∀ v ∈ items, c.holds v = false) :
    appendElement items element = withElement items element := by
  have hnew : ¬ Has items element := fun hhas => by
    obtain ⟨v, hv, hsame⟩ := has_iff.mp hhas
    simpa [hnone v hv] using h.equal v hv hsame
  rw [appendElement_of_not_has hnew, withElement]
  split_ifs <;> rfl

/-- The condition selects the new element, and no other one. -/
theorem NewTo.indices (h : NewTo c items element) (hnone : ∀ v ∈ items, c.holds v = false) :
    c.indices 0 (withElement items element) = [items.length] := by
  rw [withElement]
  split_ifs with hprimary
  · have hothers : ∀ v ∈ items.map Json.demoted, c.holds v = false := by
      simp only [List.mem_map, forall_exists_index, and_imp, forall_apply_eq_imp_iff₂]
      intro v hv
      by_contra hholds
      simpa [hnone v hv] using h.demoted hprimary v hv (by simpa using hholds)
    rw [indices_snoc hothers h.holds, List.length_map, Nat.zero_add]
  · rw [indices_snoc hnone h.holds, Nat.zero_add]

theorem newTo_of_check (h : SelectsBy r kind name text a f c) (hf : Conjunction f tests)
    (hd : Defined a.subAttributes sub) (hs : SeedsApart a sub.name tests)
    (hvalues : ∀ p ∈ tests, p.2 ≠ .null) (hone : ∀ v ∈ items, SpelledOnce v.root "primary")
    (hvalue : value ≠ .null)
    (hcheck : checkSingle a (.obj (seeded tests sub.name value)) = .ok element) :
    ∃ new, checkValue sub value = .ok new ∧ element.get? sub.name = some new ∧
      NewTo c items element := by
  obtain ⟨htyped, hholds⟩ := hf.holds_iff h.compiled hvalues fun p hp d hfound =>
    (hs.simple p hp d hfound).2.1
  -- what has compiled can be read, and then a seed is neither null nor a list
  have hread : Readable a tests := fun p hp => ⟨hvalues p hp, htyped p hp⟩
  have hscalar : ∀ p ∈ tests, p.2.toJson.isNull = false := fun p hp => by
    obtain ⟨d, literal, hfound, hliteral⟩ := htyped p hp
    exact (Literal.toJson_scalar (hs.simple p hp d hfound).2.2 (hvalues p hp) hliteral).1
  obtain ⟨members, new, rfl, hnew, hseeded⟩ :=
    seededWith_of_check h.complex hd hs hvalue hscalar hcheck
  have hmeets := hseeded.meets hs hread
  refine ⟨new, hnew, hseeded.added, (hholds _).mpr hmeets, fun v _ hsame => ?_,
    fun hprimary v hv hdemoted => ?_⟩
  · exact (hholds v).mpr fun p hp => (hmeets p hp).of_same hsame fun d hfound =>
      (hs.simple p hp d hfound).2.2
  · exact (hholds v).mpr
      (hseeded.of_demoted hs hread hprimary (hone v hv) ((hholds _).mp hdemoted))

/-- An addition of a sub-attribute under a filter that asks for equalities, and that selects nothing
of a list at the top of a resource, appends one element, which has the checked value. Resolving the
filter again selects this element, and no other. All else stays as it is, but for the elements that
are demoted for a primary one. -/
theorem Operation.add_seeded (h : SelectsBy r kind name text a f c)
    (hpath : Expression.parse r path = .ok ⟨[.selection name text, .name s]⟩)
    (hf : Conjunction f tests) (hs : SeedsApart a s tests)
    (hnone : ∀ v ∈ listAt resource.root a.name, c.holds v = false)
    (hone : ∀ v ∈ listAt resource.root a.name, SpelledOnce v.root "primary")
    (hvalue : value ≠ .null)
    (happly : (Operation.add (some path) value).apply r kind resource = .ok resource') :
    ∃ root' sub new element t, resource' = .obj root' ∧ a.subAttribute? s = some sub ∧
      checkValue sub value = .ok new ∧ element.get? sub.name = some new ∧
      besides root' a.name = besides resource.root a.name ∧
      find? root' a.name = some (.arr (withElement (listAt resource.root a.name) element)) ∧
      (⟨[.selection name text]⟩ : Expression).resolve r kind resource' = .ok t ∧
      t.selection = .elements [(listAt resource.root a.name).length] := by
  change (Assignment.add.operation path value).apply r kind resource = _ at happly
  rw [Assignment.operation_apply] at happly
  obtain ⟨t, ht, happly⟩ := bind_eq_ok.mp happly
  rw [Json.isNull_of_ne hvalue, if_neg Bool.false_ne_true] at happly
  obtain ⟨sub, hsub, hro, rfl⟩ := h.resolveText_sub hpath ht
  obtain ⟨_, hroot, rfl⟩ := assign_at_top .add rfl rfl rfl happly
  obtain ⟨element, helement, rfl⟩ := addIn_unmatched hnone hroot
  obtain ⟨hvalues, hcheck⟩ := seedElement_eq_ok hf helement
  -- the path may spell the sub-attribute in another case than the element that is made
  have hapart : SeedsApart a sub.name tests :=
    hs.congr (by rw [sameName_comm]; exact findAttribute?_sameName hsub)
  obtain ⟨new, hnew, hget, hfresh⟩ := newTo_of_check h hf ⟨findAttribute?_name hsub, hro⟩ hapart
    hvalues hone hvalue hcheck
  rw [hfresh.appended hnone]
  have hfind := find?_putHeld_self resource.root a.name
    (.arr (withElement (listAt resource.root a.name) element))
  refine ⟨_, sub, new, element, _, rfl, hsub, hnew, hget, besides_putHeld _ _ _, hfind,
    h.resolve_iff.mpr ⟨none, rfl, rfl⟩, ?_⟩
  -- the filter is resolved in the list that now ends with the element
  have hindices := hfresh.indices hnone
  rw [← listAt_of_find? hfind] at hindices
  exact congrArg Selection.elements hindices

end

/-- A primary address for work, which no filter has found, is added behind two others. -/
theorem Operation.add_seeded_primary :
    let text := "(type eq \"work\") and primary eq true"
    let f : Filter := .and (.group (.compare (.ofName "type") .eq (.text "work")))
      (.compare (.ofName "primary") .eq (.bool true))
    let c : Condition := .and (.compare ["type"] .eq (.text "work") false)
      (.compare ["primary"] .eq (.bool true) false)
    let tests : List (String × Literal) := [("type", .text "work"), ("primary", .bool true)]
    SelectsBy .standard .user "emails" text mails f c ∧ Conjunction f tests ∧
      SeedsApart mails "value" tests ∧
      (∀ v ∈ listAt homeFirst.root mails.name,
        c.holds v = false ∧ SpelledOnce v.root "primary") ∧
      ∃ root' element t, (Operation.add
          (some "emails[(type eq \"work\") and primary eq true].value")
          (.str "ann@example.org")).apply .standard .user homeFirst = .ok (.obj root') ∧
        find? root' "emails" = some (.arr (withElement (listAt homeFirst.root "emails") element)) ∧
        (⟨[.selection "emails" text]⟩ : Expression).resolve .standard .user (.obj root') = .ok t ∧
        t.selection = .elements [2] := by
  intro text f c tests
  have hselects : SelectsBy .standard .user "emails" text mails f c :=
    selectsBy_mails (by decide +kernel) (by decide +kernel)
  have hpath : Expression.parse .standard "emails[(type eq \"work\") and primary eq true].value" =
      .ok ⟨[.selection "emails" text, .name "value"]⟩ := by decide +kernel
  have hf : Conjunction f tests := .and (.group (.test _ _)) (.test _ _)
  have hsimple : tests.all (fun p => (mails.subAttribute? p.1).all fun d =>
      decide (d.isReadOnly = false ∧ d.type ≠ .complex ∧ d.type ≠ .decimal)) = true := by
    decide +kernel
  have hs : SeedsApart mails "value" tests :=
    { apart := by decide +kernel
      others := by decide +kernel
      simple := fun p hp d hd => by
        have hall := List.all_eq_true.mp hsimple p hp
        rw [hd] at hall
        exact of_decide_eq_true hall }
  have hlist : ∀ v ∈ listAt homeFirst.root mails.name,
      c.holds v = false ∧ SpelledOnce v.root "primary" := by decide +kernel
  obtain ⟨resource', happly⟩ : ∃ resource', (Operation.add
      (some "emails[(type eq \"work\") and primary eq true].value")
      (.str "ann@example.org")).apply .standard .user homeFirst = .ok resource' :=
    exists_ok (by decide +kernel)
  obtain ⟨root', sub, new, element, t, rfl, -, -, -, -, hleft, ht, hselection⟩ :=
    add_seeded hselects hpath hf hs (fun v hv => (hlist v hv).1) (fun v hv => (hlist v hv).2)
      (by simp) happly
  have hname : mails.name = "emails" := by decide +kernel
  rw [hname] at hleft hselection
  have htwo : (listAt homeFirst.root "emails").length = 2 := by decide +kernel
  rw [htwo] at hselection
  exact ⟨hselects, hf, hs, hlist, root', element, t, happly, hleft, ht, hselection⟩

end Roster
