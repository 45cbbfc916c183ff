import Roster.Proofs.Expression.Comparison
import Roster.Proofs.Expression.Split

/-!
Paths without brackets. Their segments are names, so that a comparison behind such a path comes
behind nothing but names.
-/

namespace Roster

open Filter (comparisonText scanLiteral)

namespace Expression

variable {text : List Char} {offset : Nat}

/-- A component without brackets is a name. -/
theorem component_plain {start stop : Nat} {part : String × Option String}
    (h : component text start stop none offset = .ok part) : part.2 = none := by
  obtain ⟨name, -, h⟩ := bind_eq_ok.mp h
  obtain ⟨-, h⟩ := guard_eq_ok.mp h
  obtain ⟨-, h⟩ := guard_eq_ok.mp h
  cases h
  rfl

/-- No bracket was met, and no component has one. -/
structure Splitter.Plain (s : Splitter) : Prop where
  bracket : s.bracket = none
  parts : ∀ p ∈ s.parts, p.2 = none

theorem Splitter.Moves.keepsPlain {s t : Splitter} {c : Char} (h : Moves text offset s c t)
    (hs : s.Plain) (hc : c ≠ '[') : t.Plain := by
  cases h with
  | quoted _ _ => exact ⟨hs.bracket, hs.parts⟩
  | dot _ _ _ hpart =>
    rw [hs.bracket] at hpart
    exact ⟨rfl, List.forall_mem_cons.mpr ⟨component_plain hpart, hs.parts⟩⟩
  | quote _ _ _ => exact ⟨hs.bracket, hs.parts⟩
  | opening _ _ h => exact absurd h hc
  | closing _ _ _ => exact ⟨hs.bracket, hs.parts⟩
  | plain _ _ _ => exact ⟨hs.bracket, hs.parts⟩

theorem scan_plain {cs : List Char} {s t : Splitter} (hcs : '[' ∉ cs) (hs : s.Plain)
    (h : cs.foldlM (Splitter.step text offset) s = .ok t) : t.Plain := by
  induction cs generalizing s with
  | nil =>
    cases h
    exact hs
  | cons c cs ih =>
    rw [List.mem_cons, not_or] at hcs
    rw [List.foldlM_cons] at h
    obtain ⟨next, hnext, h⟩ := bind_eq_ok.mp h
    exact ih hcs.2 ((Splitter.step_moves hnext).keepsPlain hs (Ne.symm hcs.1)) h

theorem components_plain {parts : List (String × Option String)} (htext : '[' ∉ text)
    (h : components text offset = .ok parts) : ∀ p ∈ parts, p.2 = none := by
  obtain ⟨s, hs, h⟩ := bind_eq_ok.mp h
  obtain ⟨last, hlast, h⟩ := bind_eq_ok.mp h
  cases h
  have hplain := scan_plain htext ⟨rfl, by simp⟩ hs
  rw [hplain.bracket] at hlast
  intro p hp
  rcases List.mem_cons.mp (List.mem_reverse.mp hp) with rfl | hp
  · exact component_plain hlast
  · exact hplain.parts p hp

theorem segmentsOf_plain {parts : List (String × Option String)} {segments : List Segment}
    (hparts : ∀ p ∈ parts, p.2 = none) (h : segmentsOf parts = .ok segments) :
    ∀ s ∈ segments, ∃ name, s = .name name := by
  induction parts generalizing segments with
  | nil =>
    cases h
    simp
  | cons p parts ih =>
    obtain ⟨name, filter⟩ := p
    obtain ⟨hp, hrest'⟩ := List.forall_mem_cons.mp hparts
    cases hp
    obtain ⟨s, hs, h⟩ := bind_eq_ok.mp h
    obtain ⟨rest, hrest, h⟩ := bind_eq_ok.mp h
    cases hs
    cases h
    exact List.forall_mem_cons.mpr ⟨⟨name, rfl⟩, ih hrest' hrest⟩

theorem dropColon_subset (cs : List Char) : dropColon cs ⊆ cs := by
  unfold dropColon
  split
  · exact List.subset_cons_self _ _
  · exact List.Subset.refl _

variable {r : Registry}

/-- The segments of a path without brackets are names. -/
theorem attributePath_plain {segments : List Segment} (htext : '[' ∉ text)
    (h : attributePath r text = .ok segments) : ∀ s ∈ segments, ∃ name, s = .name name := by
  have hwrap : unwrapped? text = none :=
    unwrapped?_eq_none fun hfirst => htext (List.mem_of_head? hfirst)
  cases attributePath_read h with
  | bracketed hwrap' => cases hwrap.symm.trans hwrap'
  | plain _ _ hparts hsegments => exact segmentsOf_plain (components_plain htext hparts) hsegments
  | extension => exact List.forall_mem_singleton.mpr ⟨_, rfl⟩
  | @behind ext _ _ _ _ _ hschema _ hparts hsegments =>
    obtain ⟨front, back, -, rfl, rfl, -⟩ := schemaOf_eq_ok hschema
    have hrest : '[' ∉ dropColon back :=
      fun hmem => htext (List.mem_append_right _ (dropColon_subset back hmem))
    have hfront : ∀ s ∈ (ext.map Segment.name).toList, ∃ name, s = .name name := by
      cases ext <;> simp
    exact List.forall_mem_append.mpr
      ⟨hfront, segmentsOf_plain (components_plain hrest hparts) hsegments⟩

/-- A test that is attached to segments takes the place of the last, or comes behind it. -/
theorem attached_dropLast (front : List Segment) (text : String) :
    (attached front text).dropLast ⊆ front := by
  simp only [attached]
  split
  case h_1 owner rest hreverse =>
    split
    case isTrue => simp
    case isFalse =>
      have hfront : front = rest.reverse ++ [.name owner] := by
        rw [← List.reverse_reverse front, hreverse, List.reverse_cons]
      simp [hfront]
  case h_2 => simp

variable {a : AttributePath} {value : String} {v : Literal} {op : CompareOp} {e : Expression}

/-- What is read in front of a comparison is names. -/
theorem parse_comparison_names (ha : Spelled a) (hv : scanLiteral value.toList = .ok (v, []))
    (h : parse r (comparisonText a.toText op value) = .ok e) :
    ∃ before ending f, Ending ending ∧ Compares v f ∧
      (∀ s ∈ before, ∃ name, s = Segment.name name) ∧
        e.segments = before ++ [ending (f op).toText] := by
  obtain ⟨before, ending, f, hending, hf, hsegments, -⟩ := parse_operators ha hv h
  obtain ⟨-, -, hattach⟩ := (parse_attachOr ha hv op e).mp h
  obtain ⟨front, hfront, hattach⟩ := bind_eq_ok.mp hattach
  have hbracket : '[' ∉ a.toText.toList := by
    intro hmem
    have hlead := List.all_eq_true.mp ha.lead '[' hmem
    exact absurd hlead (by decide)
  have hbefore : before = e.segments.dropLast := by
    rw [hsegments, List.dropLast_concat]
  refine ⟨before, ending, f, hending, hf, fun s hs => ?_, hsegments⟩
  rw [hbefore] at hs
  -- either the comparison was attached to the path, or the whole text is one filter
  split at hattach
  case h_1 found hsome =>
    cases hattach
    obtain ⟨owners, last, g, b, rfl, -, -, -, hattached⟩ := attach?_eq_some hsome
    rw [hattached] at hs
    exact attributePath_plain hbracket hfront s
      (List.mem_append_left _ (attached_dropLast _ _ hs))
  case h_2 =>
    obtain ⟨filter, -, hgeneral⟩ := map_eq_ok.mp hattach
    rw [← hgeneral] at hs
    cases hs

end Expression

end Roster
