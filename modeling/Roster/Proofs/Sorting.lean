import Mathlib.Data.List.Forall2
import Mathlib.Data.List.Sort
import Mathlib.Tactic.SplitIfs
import Roster.Sorting

/-! Sorting by whether one item must stand before another. Whatever that is, nothing but the given
items comes out. Where it compares ranks in a linear order, items that are placed one by one are
sorted stably. Nothing else of the items is looked at, so that two lists whose items give the same
answers are sorted alike. -/

namespace Roster

namespace Sorting

variable {α β : Type} {before : α → α → Bool} {vs ws out items : List α}

/-! ### The items that come out -/

theorem place_perm (before : α → α → Bool) (v : α) (ws : List α) :
    (place before v ws).Perm (v :: ws) := by
  induction ws with
  | nil => exact .refl _
  | cons w rest ih =>
    rw [place]
    split_ifs
    · exact (ih.cons w).trans (.swap v w rest)
    · exact .refl _

theorem placeAll_perm (before : α → α → Bool) (others items : List α) :
    (placeAll before others items).Perm (others ++ items) := by
  have hfold (placed : List α) :
      (items.foldl (fun placed v => place before v placed) placed).Perm (items ++ placed) := by
    induction items generalizing placed with
    | nil => exact .refl _
    | cons v rest ih =>
      refine (ih (place before v placed)).trans ?_
      exact ((place_perm before v placed).append_left rest).trans List.perm_middle
  refine (List.reverse_perm _).trans ((hfold others.reverse).trans ?_)
  exact List.perm_append_comm.trans ((List.reverse_perm others).append_right items)

theorem placed_perm (before : α → α → Bool) (items : List α) :
    (placed before items).Perm items :=
  placeAll_perm before [] items

theorem mergeFront_perm (before : α → α → Bool) (vs ws : List α) :
    (mergeFront before vs ws).Perm (vs ++ ws) := by
  fun_induction mergeFront before vs ws with
  | case1 ws => exact .refl _
  | case2 vs hne => simp
  | case3 v vs w ws h ih => exact (ih.cons w).trans List.perm_middle.symm
  | case4 v vs w ws h ih => exact ih.cons v

theorem mergeBack_perm (before : α → α → Bool) (vs ws : List α) :
    (mergeBack before vs ws).Perm (vs ++ ws) := by
  fun_induction mergeBack before vs ws with
  | case1 ws => exact .refl _
  | case2 vs hne => simp
  | case3 v vs w ws h ih => exact ih.cons v
  | case4 v vs w ws h ih => exact (ih.cons w).trans List.perm_middle.symm

theorem merge_perm (before : α → α → Bool) (vs ws : List α) :
    (merge before vs ws).Perm (vs ++ ws) := by
  unfold merge
  split_ifs
  · exact mergeFront_perm before vs ws
  · refine (List.reverse_perm _).trans ((mergeBack_perm before _ _).trans ?_)
    exact (List.reverse_perm vs).append (List.reverse_perm ws)

theorem sortFour_subset (before : α → α → Bool) (a b c d : α) :
    sortFour before a b c d ⊆ [a, b, c, d] := by
  unfold sortFour
  -- first the two pairs are compared, and then what they come to
  split_ifs
  all_goals
    dsimp only
    split_ifs <;> simp

theorem sortHalf_subset (before : α → α → Bool) (four : Bool) (items : List α) :
    sortHalf before four items ⊆ items := by
  unfold sortHalf
  split
  · rename_i a b c d rest
    refine List.Subset.trans (placeAll_perm before _ _).subset ?_
    exact List.append_subset.mpr ⟨List.Subset.trans (sortFour_subset before a b c d)
      (List.subset_append_left [a, b, c, d] rest), List.subset_append_right [a, b, c, d] rest⟩
  · exact (placed_perm before _).subset

theorem mergeEnds?_subset (h : mergeEnds? before vs ws = some out) : out ⊆ vs ++ ws := by
  unfold mergeEnds? at h
  extract_lets beforeMarked left right steps front back fromLeft middle met at h
  have hfront : front ⊆ left ++ right :=
    List.Subset.trans (List.take_subset _ _) (mergeFront_perm beforeMarked left right).subset
  have hback : back ⊆ left ++ right := by
    intro m hm
    have hmem := (mergeBack_perm beforeMarked left.reverse right.reverse).subset
      (List.mem_of_mem_take (List.mem_reverse.mp hm))
    simpa using hmem
  have hmiddle : middle ⊆ left ++ right := by
    intro m hm
    simp only [middle] at hm
    split_ifs at hm
    · cases hm
    · exact List.mem_append_left _ (List.mem_of_mem_drop (List.mem_of_mem_take hm))
    · exact List.mem_append_right _ (List.mem_of_mem_drop (List.mem_of_mem_take hm))
  have hmet : met ⊆ left ++ right :=
    List.append_subset.mpr ⟨List.append_subset.mpr ⟨hfront, hmiddle⟩, hback⟩
  split_ifs at h
  cases h
  have hitems := List.map_subset Prod.snd hmet
  simpa [left, right, Function.comp_def] using hitems

theorem sortBlock?_subset (h : sortBlock? before items = some out) : out ⊆ items := by
  unfold sortBlock? at h
  split_ifs at h
  · cases h
    exact List.Subset.refl _
  · refine List.Subset.trans (mergeEnds?_subset h) (List.append_subset.mpr ⟨?_, ?_⟩)
    · exact List.Subset.trans (sortHalf_subset before _ _) (List.take_subset _ _)
    · exact List.Subset.trans (sortHalf_subset before _ _) (List.drop_subset _ _)

theorem firstPart?_subset {least : Nat} {part rest : List α}
    (h : firstPart? before least items = some (part, rest)) : part ⊆ items ∧ rest ⊆ items := by
  unfold firstPart? at h
  extract_lets falls run front at h
  split_ifs at h with hrun hfalls
  · cases h
    exact ⟨List.Subset.trans (List.reverse_subset.mpr (List.Subset.refl _)) (List.take_subset _ _),
      List.drop_subset _ _⟩
  · obtain ⟨rfl, rfl⟩ := Prod.mk.inj (Option.some.inj h)
    exact ⟨List.take_subset _ _, List.drop_subset _ _⟩
  · obtain ⟨block, hblock, heq⟩ := Option.map_eq_some_iff.mp h
    cases heq
    exact ⟨List.Subset.trans (sortBlock?_subset hblock) (List.take_subset _ _),
      List.drop_subset _ _⟩

theorem sortParts?_subset (h : sortParts? before items = some out) : out ⊆ items := by
  unfold sortParts? at h
  simp only [Option.bind_eq_bind, Option.bind_eq_some_iff] at h
  obtain ⟨⟨part, rest⟩, hpart, h⟩ := h
  obtain ⟨hfirst, hrest⟩ := firstPart?_subset hpart
  dsimp only at h
  split_ifs at h
  · cases h
    exact hfirst
  · obtain ⟨⟨second, others⟩, hsecond, heq⟩ := Option.bind_eq_some_iff.mp h
    cases heq
    refine List.Subset.trans (merge_perm before part second).subset ?_
    exact List.append_subset.mpr
      ⟨hfirst, List.Subset.trans (firstPart?_subset hsecond).1 hrest⟩

/-- Sorting by whatever method gives nothing but the given items. -/
theorem arranged_subset (before : α → α → Bool) (items : List α) :
    arranged before items ⊆ items := by
  unfold arranged
  split_ifs
  · cases h : sortParts? before items with
    | some out => exact sortParts?_subset h
    | none => exact (placed_perm before items).subset
  · exact (placed_perm before items).subset

/-! ### Stable sorting -/

/-- The items that come out are the given ones. None stands behind one that it must precede, and
those that neither precede nor follow an item stand as they were given. -/
structure Stable (before : α → α → Bool) (items out : List α) : Prop where
  perm : out.Perm items
  ordered : out.Pairwise fun a b => before b a = false
  kept : ∀ v ∈ items, out.filter (fun w => !before v w && !before w v) =
    items.filter fun w => !before v w && !before w v

/-- Among the items, one must stand before another when it has the lower rank. -/
def Ranks [LT β] [DecidableLT β] (before : α → α → Bool) (rank : α → β) (items : List α) : Prop :=
  ∀ a ∈ items, ∀ b ∈ items, before a b = decide (rank a < rank b)

section Ranked

variable [LinearOrder β] {rank : α → β} {v : α}

theorem Ranks.subset (h : Ranks before rank items) (hs : ws ⊆ items) : Ranks before rank ws :=
  fun a ha b hb => h a (hs ha) b (hs hb)

/-- Placing keeps the order, the highest rank first. -/
theorem place_ordered (h : Ranks before rank (v :: ws))
    (hw : ws.Pairwise fun a b => rank b ≤ rank a) :
    (place before v ws).Pairwise fun a b => rank b ≤ rank a := by
  induction ws with
  | nil => exact List.pairwise_singleton _ _
  | cons w rest ih =>
    obtain ⟨hfirst, hrest⟩ := List.pairwise_cons.mp hw
    have hvw : before v w = decide (rank v < rank w) := h v (by simp) w (by simp)
    rw [place]
    split_ifs with hb
    · have hlow : rank v < rank w := by simpa [hvw] using hb
      have hplaced := ih (h.subset (by simp)) hrest
      refine List.pairwise_cons.mpr ⟨fun b hmem => ?_, hplaced⟩
      rcases List.mem_cons.mp ((place_perm before v rest).subset hmem) with rfl | hmem
      · exact hlow.le
      · exact hfirst b hmem
    · have hhigh : rank w ≤ rank v := by simpa [hvw] using hb
      refine List.pairwise_cons.mpr ⟨fun b hmem => ?_, hw⟩
      rcases List.mem_cons.mp hmem with rfl | hmem
      · exact hhigh
      · exact (hfirst b hmem).trans hhigh

/-- An item passes none of its own rank. -/
theorem place_filter (h : Ranks before rank (v :: ws)) (k : β) :
    (place before v ws).filter (rank · = k) = (v :: ws).filter (rank · = k) := by
  induction ws with
  | nil => rfl
  | cons w rest ih =>
    have hvw : before v w = decide (rank v < rank w) := h v (by simp) w (by simp)
    rw [place]
    split_ifs with hb
    · have hlow : rank v < rank w := by simpa [hvw] using hb
      rw [List.filter_cons, ih (h.subset (by simp))]
      by_cases hk : rank w = k
      · simp [hk, (hk ▸ hlow).ne]
      · simp [List.filter_cons, hk]
    · rfl

/-- Items placed one by one are sorted stably. -/
theorem placed_stable (h : Ranks before rank items) :
    Stable before items (placed before items) := by
  -- the items placed so far stand in reverse, those of one rank too
  have hfold (given : List α) : given ⊆ items → ∀ ws, ws ⊆ items →
      ws.Pairwise (fun a b => rank b ≤ rank a) →
      (given.foldl (fun placed v => place before v placed) ws).Pairwise
          (fun a b => rank b ≤ rank a) ∧
        ∀ k, (given.foldl (fun placed v => place before v placed) ws).filter (rank · = k) =
          (given.filter (rank · = k)).reverse ++ ws.filter (rank · = k) := by
    intro hgiven
    induction given with
    | nil => exact fun ws _ hws => ⟨hws, fun k => rfl⟩
    | cons v rest ih =>
      intro ws hsub hws
      have hboth : v :: ws ⊆ items := List.cons_subset.mpr ⟨hgiven List.mem_cons_self, hsub⟩
      have hranks := h.subset hboth
      have hplaced := List.Subset.trans (place_perm before v ws).subset hboth
      obtain ⟨hordered, hfilter⟩ := ih (List.cons_subset.mp hgiven).2 (place before v ws) hplaced
        (place_ordered hranks hws)
      refine ⟨hordered, fun k => ?_⟩
      rw [List.foldl_cons, hfilter k, place_filter hranks k]
      by_cases hk : rank v = k <;> simp [hk]
  obtain ⟨hordered, hfilter⟩ := hfold items (List.Subset.refl _) [] (by simp) .nil
  have hperm := placed_perm before items
  refine ⟨hperm, ?_, fun v hv => ?_⟩
  · have hrising : (placed before items).Pairwise fun a b => rank a ≤ rank b :=
      List.pairwise_reverse.mpr hordered
    refine hrising.imp_of_mem fun {a b} ha hb hle => ?_
    rw [h b (hperm.subset hb) a (hperm.subset ha)]
    exact decide_eq_false hle.not_gt
  · have hsame : ∀ w ∈ items, (!before v w && !before w v) = decide (rank w = rank v) := by
      intro w hw
      rw [h v hv w hw, h w hw v hv, Bool.eq_iff_iff]
      simpa using (le_antisymm_iff (a := rank w)).symm
    rw [List.filter_congr hsame, List.filter_congr fun w hw => hsame w (hperm.subset hw)]
    simp [placed, placeAll, hfilter]

end Ranked

end Sorting

/-! ### Two lists side by side -/

namespace Sorting

variable {α β : Type} {f : α → β} {before : α → α → Bool} {others : β → β → Bool}

section Natural

variable (h : ∀ a b, others (f a) (f b) = before a b)

include h

/-! ### Placing and merging -/

theorem place_map (v : α) (ws : List α) :
    place others (f v) (ws.map f) = (place before v ws).map f := by
  induction ws with
  | nil => rfl
  | cons w rest ih =>
    rw [List.map_cons, place, place, h, ih]
    split_ifs <;> rfl

theorem placeAll_map (placed items : List α) :
    placeAll others (placed.map f) (items.map f) = (placeAll before placed items).map f := by
  have hfold (done : List α) :
      (items.map f).foldl (fun done v => place others v done) (done.map f) =
        (items.foldl (fun done v => place before v done) done).map f := by
    induction items generalizing done with
    | nil => rfl
    | cons v rest ih => rw [List.map_cons, List.foldl_cons, place_map h, ih, List.foldl_cons]
  rw [placeAll, placeAll, ← List.map_reverse, hfold, List.map_reverse]

theorem placed_map (items : List α) : placed others (items.map f) = (placed before items).map f :=
  placeAll_map h [] items

theorem mergeFront_map (vs ws : List α) :
    mergeFront others (vs.map f) (ws.map f) = (mergeFront before vs ws).map f := by
  fun_induction mergeFront before vs ws with
  | case1 ws => simp [mergeFront]
  | case2 vs hne => cases vs <;> simp [mergeFront]
  | case3 v vs w ws hw ih =>
    simp only [List.map_cons] at ih ⊢
    rw [mergeFront, h, if_pos hw, ih]
  | case4 v vs w ws hw ih =>
    simp only [List.map_cons] at ih ⊢
    rw [mergeFront, h, if_neg hw, ih]

theorem mergeBack_map (vs ws : List α) :
    mergeBack others (vs.map f) (ws.map f) = (mergeBack before vs ws).map f := by
  fun_induction mergeBack before vs ws with
  | case1 ws => simp [mergeBack]
  | case2 vs hne => cases vs <;> simp [mergeBack]
  | case3 v vs w ws hw ih =>
    simp only [List.map_cons] at ih ⊢
    rw [mergeBack, h, if_pos hw, ih]
  | case4 v vs w ws hw ih =>
    simp only [List.map_cons] at ih ⊢
    rw [mergeBack, h, if_neg hw, ih]

theorem merge_map (vs ws : List α) :
    merge others (vs.map f) (ws.map f) = (merge before vs ws).map f := by
  unfold merge
  rw [List.length_map, List.length_map]
  split_ifs
  · exact mergeFront_map h vs ws
  · rw [← List.map_reverse, ← List.map_reverse, mergeBack_map h, List.map_reverse]

/-- The marks of the halves are not looked at, and they stay with the items. -/
theorem mergeEnds?_map (vs ws : List α) :
    mergeEnds? others (vs.map f) (ws.map f) = (mergeEnds? before vs ws).map (List.map f) := by
  let marked (m : Bool × α) : Bool × β := (m.1, f m.2)
  let othersMarked (m n : Bool × β) : Bool := others m.2 n.2
  let beforeMarked (m n : Bool × α) : Bool := before m.2 n.2
  have hmarked (m n : Bool × α) : othersMarked (marked m) (marked n) = beforeMarked m n :=
    h m.2 n.2
  have hfront := mergeFront_map hmarked
  have hback := mergeBack_map hmarked
  have hleft : (vs.map f).map (fun v => (true, v)) = (vs.map fun v => (true, v)).map marked := by
    simp [marked]
  have hright : (ws.map f).map (fun w => (false, w)) = (ws.map fun w => (false, w)).map marked := by
    simp [marked]
  have hleftCount (ms : List (Bool × α)) : (ms.map marked).countP (·.1) = ms.countP (·.1) := by
    rw [List.countP_map]
    rfl
  have hrightCount (ms : List (Bool × α)) :
      (ms.map marked).countP (fun m => !m.1) = ms.countP fun m => !m.1 := by
    rw [List.countP_map]
    rfl
  have hmiddle (c d : Prop) [Decidable c] [Decidable d] (xs ys : List (Bool × α)) :
      (if c then [] else if d then xs.map marked else ys.map marked) =
        (if c then [] else if d then xs else ys).map marked := by
    split_ifs <;> rfl
  have hitems (ms : List (Bool × α)) : (ms.map marked).map Prod.snd = (ms.map Prod.snd).map f := by
    simp [marked]
  unfold mergeEnds?
  simp only [hleft, hright, ← List.map_reverse, List.length_map]
  rw [hfront, hback]
  generalize mergeFront beforeMarked _ _ = front
  generalize mergeBack beforeMarked _ _ = back
  generalize (vs.map fun v => (true, v)) = left
  generalize (ws.map fun w => (false, w)) = right
  simp only [← List.map_take, ← List.map_drop, ← List.map_reverse, ← List.map_append, hleftCount,
    hrightCount, hmiddle]
  split_ifs <;> simp only [Option.map_some, Option.map_none, hitems]

theorem sortFour_map (a b c d : α) :
    sortFour others (f a) (f b) (f c) (f d) = (sortFour before a b c d).map f := by
  unfold sortFour
  simp only [h]
  -- first the two pairs are compared, and then what they come to
  cases before b a <;> cases before d c <;>
    simp only [Bool.false_eq_true, if_false, if_true, h, ← apply_ite f, apply_ite (List.map f),
      List.map_cons, List.map_nil]

theorem sortHalf_map (four : Bool) (items : List α) :
    sortHalf others four (items.map f) = (sortHalf before four items).map f := by
  match four, items with
  | true, a :: b :: c :: d :: rest =>
    simp only [List.map_cons, sortHalf]
    rw [sortFour_map h, placeAll_map h]
  | false, items => exact placed_map h items
  | true, [] => rfl
  | true, [a] => exact placed_map h [a]
  | true, [a, b] => exact placed_map h [a, b]
  | true, [a, b, c] => exact placed_map h [a, b, c]

theorem sortBlock?_map (items : List α) :
    sortBlock? others (items.map f) = (sortBlock? before items).map (List.map f) := by
  unfold sortBlock?
  rw [List.length_map]
  split_ifs
  · rfl
  · simp only [← List.map_take, ← List.map_drop]
    rw [sortHalf_map h, sortHalf_map h, mergeEnds?_map h]

/-! ### Runs -/

theorem runLength_map (falls : Bool) (items : List α) :
    runLength others falls (items.map f) = runLength before falls items := by
  fun_induction runLength before falls items with
  | case1 => rfl
  | case2 => rfl
  | case3 v w rest hrun ih =>
    simp only [List.map_cons] at ih ⊢
    rw [runLength, h, if_pos hrun, ih]
  | case4 v w rest hrun =>
    simp only [List.map_cons]
    rw [runLength, h, if_neg hrun]

theorem firstPart?_map (least : Nat) (items : List α) :
    firstPart? others least (items.map f) =
      (firstPart? before least items).map (Prod.map (List.map f) (List.map f)) := by
  have hfalls : (((items.map f).tail.zip (items.map f)).head?.any fun m => others m.1 m.2) =
      (items.tail.zip items).head?.any fun m => before m.1 m.2 := by
    rw [← List.map_tail, List.zip_map, List.head?_map, Option.any_map]
    exact congrArg (Option.any · _) (funext fun m => h m.1 m.2)
  unfold firstPart?
  simp only [hfalls, runLength_map h, ← List.map_take, ← List.map_drop, sortBlock?_map h]
  split_ifs
  · rw [← List.map_reverse]
    rfl
  · rfl
  · cases sortBlock? before (items.take blockSize) <;> rfl

theorem sortParts?_map (items : List α) :
    sortParts? others (items.map f) = (sortParts? before items).map (List.map f) := by
  unfold sortParts?
  simp only [List.length_map, firstPart?_map h]
  generalize items.length - items.length / 2 = least
  cases firstPart? before least items with
  | none => rfl
  | some part =>
    obtain ⟨first, rest⟩ := part
    simp only [Option.map_some, Prod.map, Option.bind_eq_bind, Option.bind_some, List.isEmpty_map,
      firstPart?_map h]
    split_ifs
    · rfl
    · cases firstPart? before least rest with
      | none => rfl
      | some part => exact congrArg some (merge_map h first part.1)

theorem arranged_map (items : List α) :
    arranged others (items.map f) = (arranged before items).map f := by
  unfold arranged
  rw [List.length_map, sortParts?_map h, placed_map h]
  split_ifs
  · cases sortParts? before items <;> rfl
  · rfl

end Natural

/-! ### Two lists side by side -/

variable {R : α → β → Prop} {items : List α} {images : List β}

/-- Lists whose items are related are two views of one list of related pairs. -/
theorem exists_pairs (h : List.Forall₂ R items images) :
    ∃ pairs : List { m : α × β // R m.1 m.2 },
      items = pairs.map (·.1.1) ∧ images = pairs.map (·.1.2) := by
  induction h with
  | nil => exact ⟨[], rfl, rfl⟩
  | @cons v w vs ws hvw _ ih =>
    obtain ⟨pairs, rfl, rfl⟩ := ih
    exact ⟨⟨(v, w), hvw⟩ :: pairs, rfl, rfl⟩

theorem forall₂_pairs (pairs : List { m : α × β // R m.1 m.2 }) :
    List.Forall₂ R (pairs.map (·.1.1)) (pairs.map (·.1.2)) := by
  rw [List.forall₂_map_left_iff, List.forall₂_map_right_iff, List.forall₂_same]
  exact fun m _ => m.2

/-- A method of sorting that looks at items only through their order keeps related items side by
side. -/
theorem forall₂_of_natural (sort : (γ : Type) → (γ → γ → Bool) → List γ → List γ)
    (hsort : ∀ (γ δ : Type) (f : γ → δ) (before : γ → γ → Bool) (others : δ → δ → Bool),
      (∀ a b, others (f a) (f b) = before a b) → ∀ items,
        sort δ others (items.map f) = (sort γ before items).map f)
    (h : List.Forall₂ R items images)
    (hbefore : ∀ a b a' b', R a a' → R b b' → others a' b' = before a b) :
    List.Forall₂ R (sort α before items) (sort β others images) := by
  obtain ⟨pairs, rfl, rfl⟩ := exists_pairs h
  have hleft := hsort { m : α × β // R m.1 m.2 } α (·.1.1) (fun m n => before m.1.1 n.1.1) before
    (fun _ _ => rfl) pairs
  have hright := hsort { m : α × β // R m.1 m.2 } β (·.1.2) (fun m n => before m.1.1 n.1.1) others
    (fun m n => hbefore _ _ _ _ m.2 n.2) pairs
  rw [hleft, hright]
  exact forall₂_pairs _

theorem placed_forall₂ (h : List.Forall₂ R items images)
    (hbefore : ∀ a b a' b', R a a' → R b b' → others a' b' = before a b) :
    List.Forall₂ R (placed before items) (placed others images) :=
  forall₂_of_natural @placed (fun _ _ _ _ _ h => placed_map h) h hbefore

theorem arranged_forall₂ (h : List.Forall₂ R items images)
    (hbefore : ∀ a b a' b', R a a' → R b b' → others a' b' = before a b) :
    List.Forall₂ R (arranged before items) (arranged others images) :=
  forall₂_of_natural @arranged (fun _ _ _ _ _ h => arranged_map h) h hbefore

end Sorting

end Roster
