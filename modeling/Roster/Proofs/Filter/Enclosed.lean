import Roster.Proofs.Filter.Comparison

/-!
A text in parentheses as a filter: one group of what is read inside, which no blanks at the ends of
the text change. A test is read the same behind every path, and the bracket form of a test of a
sub-attribute is that test behind the name of the sub-attribute.
-/

namespace Roster

namespace Filter

variable {nested : Scan Filter}

/-! ### Leading blanks -/

theorem keyword?_skip (word : String) (cs : List Char) :
    keyword? word (skipBlanks cs) = keyword? word cs := by
  simp only [keyword?, skipBlanks_skipBlanks]

theorem scanOperand_skip (cs : List Char) :
    scanOperand nested (skipBlanks cs) = scanOperand nested cs := by
  simp only [scanOperand, keyword?_skip, skipBlanks_skipBlanks]

theorem scanFilter_skip (cs : List Char) :
    scanFilter nested (skipBlanks cs) = scanFilter nested cs := by
  simp only [scanFilter, scanJoined, scanOperand_skip]

theorem scanTest_skip (a : AttributePath) (cs : List Char) :
    scanTest a (skipBlanks cs) = scanTest a cs := by
  simp only [scanTest, keyword?_skip, scanOperator, skipBlanks_skipBlanks]

/-! ### The path of a test -/

/-- A test of another path. -/
def retarget (a : AttributePath) : Filter → Filter
  | .compare _ op v => .compare a op v
  | .present _ => .present a
  | f => f

theorem scanTest_retarget (a b : AttributePath) (cs : List Char) :
    scanTest b cs = (scanTest a cs).map fun r => (r.1.retarget b, r.2) := by
  simp only [scanTest]
  cases keyword? "pr" cs with
  | some rest => rfl
  | none =>
    cases scanOperator cs with
    | error fault => rfl
    | ok read =>
      simp only [bind, Except.bind]
      cases scanLiteral read.2 <;> rfl

section Tests

variable {f : Filter} {a : AttributePath}

theorem bracketed_dotted {s : String} (hpath : f.testPath? = some a) (hsub : a.sub = some s) :
    f.bracketed = .select { a with sub := none } (f.retarget (.ofName s)) := by
  cases f <;> cases hpath <;> simp [bracketed, hsub, retarget]

theorem bracketed_plain (hpath : f.testPath? = some a) (hsub : a.sub = none) :
    f.bracketed = f := by
  cases f <;> cases hpath <;> simp [bracketed, hsub]

theorem WellFormed.retarget (hf : f.WellFormed) (hpath : f.testPath? = some a) {b : AttributePath}
    (hb : b.WellFormed) : (f.retarget b).WellFormed := by
  cases f <;> cases hpath
  · exact ⟨hb, hf.2⟩
  · exact hb

theorem testPath?_retarget (hpath : f.testPath? = some a) (b : AttributePath) :
    (f.retarget b).testPath? = some b := by
  cases f <;> cases hpath <;> rfl

end Tests

/-! ### Paths in bracket form -/

/-- A path with the name and the schema of another one and its sub-attribute or none, or that
sub-attribute by itself. -/
def IsPartOf (b a : AttributePath) : Prop :=
  (b.name = a.name ∧ b.schema = a.schema ∧ ∀ s ∈ b.sub, s ∈ a.sub) ∨ ∃ s ∈ a.sub, b = .ofName s

theorem isPartOf_test {f : Filter} {a : AttributePath} (hpath : f.testPath? = some a) :
    ∀ b ∈ f.bracketed.paths, IsPartOf b a := by
  have hself {g : Filter} {b c : AttributePath} (hg : g.testPath? = some c)
      (hb : b ∈ g.paths) : b = c := by
    cases g <;> cases hg <;> exact List.mem_singleton.mp hb
  intro b hb
  cases hsub : a.sub with
  | none =>
    rw [bracketed_plain hpath hsub] at hb
    cases hself hpath hb
    exact .inl ⟨rfl, rfl, fun s hs => hs⟩
  | some s =>
    rw [bracketed_dotted hpath hsub] at hb
    rcases List.mem_cons.mp hb with rfl | hb
    · exact .inl ⟨rfl, rfl, by simp⟩
    · exact .inr ⟨s, hsub, hself (testPath?_retarget hpath (.ofName s)) hb⟩

/-- The bracket form has no other paths than parts of those of the filter. -/
theorem paths_bracketed (f : Filter) : ∀ b ∈ f.bracketed.paths, ∃ a ∈ f.paths, IsPartOf b a := by
  have hboth {f g : Filter} (hf : ∀ b ∈ f.bracketed.paths, ∃ a ∈ f.paths, IsPartOf b a)
      (hg : ∀ b ∈ g.bracketed.paths, ∃ a ∈ g.paths, IsPartOf b a) :
      ∀ b ∈ f.bracketed.paths ++ g.bracketed.paths, ∃ a ∈ f.paths ++ g.paths, IsPartOf b a := by
    intro b hb
    rcases List.mem_append.mp hb with hb | hb
    · obtain ⟨a, ha, hpart⟩ := hf b hb
      exact ⟨a, List.mem_append_left _ ha, hpart⟩
    · obtain ⟨a, ha, hpart⟩ := hg b hb
      exact ⟨a, List.mem_append_right _ ha, hpart⟩
  induction f with
  | compare a op v =>
    intro b hb
    exact ⟨a, List.mem_singleton_self a, isPartOf_test rfl b hb⟩
  | present a =>
    intro b hb
    exact ⟨a, List.mem_singleton_self a, isPartOf_test rfl b hb⟩
  | select a f ih =>
    intro b hb
    rcases List.mem_cons.mp hb with rfl | hb
    · exact ⟨b, List.mem_cons_self, .inl ⟨rfl, rfl, fun s hs => hs⟩⟩
    · obtain ⟨c, hc, hpart⟩ := ih b hb
      exact ⟨c, List.mem_cons_of_mem a hc, hpart⟩
  | and f g ihf ihg => exact hboth ihf ihg
  | or f g ihf ihg => exact hboth ihf ihg
  | not f ih => exact ih
  | group f ih => exact ih

/-! ### Enclosed filters -/

/-- The first operand is all that is read where nothing but what closes is behind it. -/
theorem scanFilter_first {cs rest : List Char} {f : Filter}
    (h : scanFilter nested cs = .ok (f, rest)) : ∃ first left,
      scanOperand nested cs = .ok (first, left) ∧ (Closes left → f = first ∧ rest = left) := by
  obtain ⟨⟨conjunction, behind⟩, hand, -⟩ := bind_eq_ok.mp h
  obtain ⟨⟨first, left⟩, hfirst, -⟩ := bind_eq_ok.mp hand
  refine ⟨first, left, hfirst, fun hcloses => ?_⟩
  cases h.symm.trans (scanFilter_operand hfirst hcloses)
  exact ⟨rfl, rfl⟩

/-- The filter inside brackets is the one that is read when its text stands alone. -/
theorem scanEnclosed_parse {text rest more : List Char} {f g : Filter} {depth : Nat} {close : Char}
    {fault : Malformed} (hc : close = ')' ∨ close = ']') (hdepth : depth ≤ greatestDepth + 1)
    (hread : parse (String.ofList text) = .ok f)
    (h : scanEnclosed (scanWithin depth) close fault (text ++ close :: rest) = .ok (g, more)) :
    g = f ∧ more = rest := by
  obtain ⟨-, blanks, hf, hblanks⟩ := parse_eq_ok.mp hread
  rw [String.toList_ofList] at hf
  have hcloses : Closes (close :: rest) := closes_cons hc rest
  have hself := (scanWithin_carries (Nat.le_refl _) hf).2 hcloses
  obtain ⟨left, hinner, hskip⟩ := scanEnclosed_iff.mp h
  have hlifted := (scanWithin_carries hdepth hinner).2 closes_nil
  rw [List.append_nil, List.append_nil, hself] at hlifted
  cases hlifted
  have hblank : isBlank close = false := by
    rcases hc with rfl | rfl <;> decide
  rw [skipBlanks_blanks hblanks, skipBlanks_cons rest hblank] at hskip
  cases hskip
  exact ⟨rfl, rfl⟩

/-- A text in parentheses is a group, when the parenthesis at its end is the one that closes it. -/
theorem parse_group {cs : List Char} {g : Filter}
    (h : parse (String.ofList ('(' :: (cs ++ [')']))) = .ok g) :
    ∃ f rest, scanWithin (greatestDepth + 1) (cs ++ [')']) = .ok (f, rest) ∧
      (skipBlanks rest = [')'] → g = .group f) := by
  obtain ⟨-, blanks, hscan, -⟩ := parse_eq_ok.mp h
  rw [String.toList_ofList] at hscan
  obtain ⟨⟨left, more⟩, hand, hor⟩ := bind_eq_ok.mp hscan
  obtain ⟨⟨first, behind⟩, hfirst, hand⟩ := bind_eq_ok.mp hand
  rw [scanOperand_parenthesis] at hfirst
  obtain ⟨⟨f, closed⟩, hinner, hgroup⟩ := map_eq_ok.mp hfirst
  cases hgroup
  obtain ⟨rest, hinner, hclosed⟩ := scanEnclosed_iff.mp hinner
  have hlifted := (scanWithin_carries (Nat.le_succ greatestDepth) hinner).2 closes_nil
  rw [List.append_nil, List.append_nil] at hlifted
  refine ⟨f, rest, hlifted, fun hend => ?_⟩
  -- nothing is left for either chain behind the parenthesis
  cases hend.symm.trans hclosed
  cases hand
  cases hor
  rfl

end Filter

end Roster
