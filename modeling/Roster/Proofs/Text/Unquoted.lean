import Roster.Proofs.Text
import Roster.Proofs.Text.Lowercase
import Roster.Text.Slice

/-!
Texts that differ in the case of letters outside their quotes. Inside quotes, where a backslash goes
with the character behind it, every character stays as it is.
-/

namespace Roster

/-- Where a character of a text stands: outside quotes, inside them, or inside them behind a
backslash. -/
inductive Quoting where
  | outside
  | inside
  | escaped
deriving DecidableEq, Repr

namespace Quoting

def step : Quoting → Char → Quoting
  | .outside, c => if c == '"' then .inside else .outside
  | .inside, c => if c == '"' then .outside else if c == '\\' then .escaped else .inside
  | .escaped, _ => .inside

/-- Where a text leads. -/
def after (q : Quoting) (cs : List Char) : Quoting :=
  cs.foldl step q

/-- A character with its case taken away outside quotes. -/
def fold : Quoting → Char → Char
  | .outside, c => c.toLower
  | _, c => c

end Quoting

/-- A text in small letters outside its quotes. -/
def foldUnquoted (q : Quoting) : List Char → List Char
  | [] => []
  | c :: cs => q.fold c :: foldUnquoted (q.step c) cs

/-- A text that begins outside quotes, in small letters but for what it quotes. -/
def respelled (s : String) : String :=
  String.ofList (foldUnquoted .outside s.toList)

/-- Two texts differ in nothing but the case of letters outside their quotes. -/
def SameSpelling (s t : String) : Prop :=
  respelled s = respelled t

instance (s t : String) : Decidable (SameSpelling s t) :=
  decidable_of_iff (foldUnquoted .outside s.toList = foldUnquoted .outside t.toList)
    String.ofList_inj.symm

variable {q : Quoting} {c : Char} {cs xs ys : List Char}

/-! ### Characters -/

namespace Quoting

theorem fold_eq_or (q : Quoting) (c : Char) : q.fold c = c ∨ q.fold c = c.toLower := by
  cases q with
  | outside => exact .inr rfl
  | _ => exact .inl rfl

/-- What the letters of either case have in common is not lost. -/
theorem fold_eq {α : Type} {p : Char → α} (hp : ∀ c, p c.toLower = p c) (q : Quoting) (c : Char) :
    p (q.fold c) = p c := by
  rcases q.fold_eq_or c with h | h
  · rw [h]
  · rw [h, hp]

end Quoting

/-- A character that is no letter is what it is in either case. -/
theorem beq_toLower {d : Char} (hd : isLetter d = false) (c : Char) :
    (c.toLower == d) = (c == d) := by
  rw [Bool.eq_iff_iff, beq_iff_eq, beq_iff_eq]
  constructor
  · exact fun h => eq_of_toLower_eq h hd
  · rintro rfl
    exact toLower_of_not_isLetter hd

namespace Quoting

theorem fold_beq {d : Char} (hd : isLetter d = false) (q : Quoting) (c : Char) :
    (q.fold c == d) = (c == d) :=
  fold_eq (p := (· == d)) (beq_toLower hd) q c

theorem fold_of_not_isLetter (hc : isLetter c = false) (q : Quoting) : q.fold c = c := by
  rcases q.fold_eq_or c with h | h
  · exact h
  · rw [h, toLower_of_not_isLetter hc]

@[simp] theorem step_fold (q p : Quoting) (c : Char) : q.step (p.fold c) = q.step c := by
  cases q with
  | outside => simp only [step, fold_beq (show isLetter '"' = false by decide)]
  | inside =>
    simp only [step, fold_beq (show isLetter '"' = false by decide),
      fold_beq (show isLetter '\\' = false by decide)]
  | escaped => rfl

theorem after_append (q : Quoting) (xs ys : List Char) :
    q.after (xs ++ ys) = (q.after xs).after ys :=
  List.foldl_append

/-- Nothing but a quote leads inside of quotes. -/
theorem after_outside (h : '"' ∉ cs) : outside.after cs = outside := by
  induction cs with
  | nil => rfl
  | cons c cs ih =>
    rw [List.mem_cons, not_or] at h
    have hstep : outside.step c = outside := by simp [step, Ne.symm h.1]
    rw [after, List.foldl_cons, hstep]
    exact ih h.2

end Quoting

theorem isBlank_toLower (c : Char) : isBlank c.toLower = isBlank c := by
  rcases toLower_eq_or c with h | ⟨h, hl⟩
  · rw [h]
  · have hno {d : Char} (hd : isLetter d = true) : isBlank d = false :=
      not_isBlank_of_isQualifiedChar (isQualifiedChar_of_isNameChar (isNameChar_of_isLetter hd))
    rw [hno h, hno hl]

theorem utf8Size_toLower (c : Char) : c.toLower.utf8Size = c.utf8Size := by
  rcases toLower_eq_or c with h | ⟨h, hl⟩
  · rw [h]
  · have hone {d : Char} (hd : isLetter d = true) : d.utf8Size = 1 := by
      have hbounds := isLetter_iff.mp hd
      rw [Char.utf8Size, if_pos]
      rw [UInt32.le_iff_toNat_le]
      exact (show d.toNat ≤ 127 by omega)
    rw [hone h, hone hl]

/-! ### Texts -/

@[simp] theorem foldUnquoted_nil (q : Quoting) : foldUnquoted q [] = [] := rfl

theorem foldUnquoted_cons (q : Quoting) (c : Char) (cs : List Char) :
    foldUnquoted q (c :: cs) = q.fold c :: foldUnquoted (q.step c) cs := rfl

theorem foldUnquoted_append (q : Quoting) (xs ys : List Char) :
    foldUnquoted q (xs ++ ys) = foldUnquoted q xs ++ foldUnquoted (q.after xs) ys := by
  induction xs generalizing q with
  | nil => rfl
  | cons x xs ih =>
    simp only [List.cons_append, foldUnquoted_cons, ih]
    rfl

@[simp] theorem length_foldUnquoted (q : Quoting) (cs : List Char) :
    (foldUnquoted q cs).length = cs.length := by
  induction cs generalizing q with
  | nil => rfl
  | cons c cs ih => simp only [foldUnquoted_cons, List.length_cons, ih]

@[simp] theorem foldUnquoted_eq_nil : foldUnquoted q cs = [] ↔ cs = [] := by
  rw [← List.length_eq_zero_iff, length_foldUnquoted, List.length_eq_zero_iff]

/-- What the letters of either case have in common is the same at every place. -/
theorem map_foldUnquoted {α : Type} {p : Char → α} (hp : ∀ c, p c.toLower = p c) (q : Quoting)
    (cs : List Char) : (foldUnquoted q cs).map p = cs.map p := by
  induction cs generalizing q with
  | nil => rfl
  | cons c cs ih => simp only [foldUnquoted_cons, List.map_cons, ih, Quoting.fold_eq hp]

theorem map_toLower_foldUnquoted (q : Quoting) (cs : List Char) :
    (foldUnquoted q cs).map Char.toLower = cs.map Char.toLower :=
  map_foldUnquoted toLower_toLower q cs

@[simp] theorem utf8Length_foldUnquoted (q : Quoting) (cs : List Char) :
    utf8Length (foldUnquoted q cs) = utf8Length cs := by
  induction cs generalizing q with
  | nil => rfl
  | cons c cs ih =>
    simp only [foldUnquoted_cons, utf8Length_cons, ih, Quoting.fold_eq utf8Size_toLower]

theorem all_foldUnquoted {p : Char → Bool} (hp : ∀ c, p c.toLower = p c) (q : Quoting)
    (cs : List Char) : (foldUnquoted q cs).all p = cs.all p := by
  have hall (xs : List Char) : xs.all p = (xs.map p).all id := by simp
  rw [hall, hall cs, map_foldUnquoted hp]

/-- A text without quotes becomes one of small letters. -/
theorem foldUnquoted_outside (h : '"' ∉ cs) : foldUnquoted .outside cs = cs.map Char.toLower := by
  induction cs with
  | nil => rfl
  | cons c cs ih =>
    rw [List.mem_cons, not_or] at h
    have hstep : Quoting.outside.step c = .outside := by simp [Quoting.step, Ne.symm h.1]
    rw [foldUnquoted_cons, hstep, ih h.2]
    rfl

theorem foldUnquoted_append_outside (h : '"' ∉ xs) (ys : List Char) :
    foldUnquoted .outside (xs ++ ys) = xs.map Char.toLower ++ foldUnquoted .outside ys := by
  rw [foldUnquoted_append, foldUnquoted_outside h, Quoting.after_outside h]

/-- A character that stays, outside of quotes, and leads into none. -/
theorem foldUnquoted_mark (hc : isLetter c = false) (hquote : c ≠ '"') (cs : List Char) :
    foldUnquoted .outside (c :: cs) = c :: foldUnquoted .outside cs := by
  have hstep : Quoting.outside.step c = .outside := by simp [Quoting.step, hquote]
  rw [foldUnquoted_cons, hstep, Quoting.fold_of_not_isLetter hc]

theorem beginsWith_foldUnquoted (word : List Char) (q : Quoting) (cs : List Char) :
    beginsWith word (foldUnquoted q cs) = beginsWith word cs := by
  simp only [beginsWith, List.map_take, map_toLower_foldUnquoted]

/-! ### Fronts and ends -/

theorem takeWhile_foldUnquoted {p : Char → Bool} (hp : ∀ c, p c.toLower = p c) (q : Quoting)
    (cs : List Char) : (foldUnquoted q cs).takeWhile p = foldUnquoted q (cs.takeWhile p) := by
  induction cs generalizing q with
  | nil => rfl
  | cons c cs ih =>
    rw [foldUnquoted_cons, List.takeWhile_cons, List.takeWhile_cons, Quoting.fold_eq hp]
    split
    · rw [ih]
      rfl
    · rfl

theorem dropWhile_foldUnquoted {p : Char → Bool} (hp : ∀ c, p c.toLower = p c)
    (hquote : p '"' = false) (cs : List Char) :
    (foldUnquoted .outside cs).dropWhile p = foldUnquoted .outside (cs.dropWhile p) := by
  induction cs with
  | nil => rfl
  | cons c cs ih =>
    rw [foldUnquoted_cons, List.dropWhile_cons, List.dropWhile_cons, Quoting.fold_eq hp]
    split
    case isTrue hc =>
      have hstep : Quoting.outside.step c = .outside := by
        have hne : c ≠ '"' := by
          rintro rfl
          simp [hquote] at hc
        simp [Quoting.step, hne]
      rw [hstep, ih]
    case isFalse => rfl

theorem not_isBlank_quote : isBlank '"' = false := by decide

@[simp] theorem skipBlanks_foldUnquoted (cs : List Char) :
    skipBlanks (foldUnquoted .outside cs) = foldUnquoted .outside (skipBlanks cs) :=
  dropWhile_foldUnquoted isBlank_toLower not_isBlank_quote cs

theorem rdropWhile_foldUnquoted {p : Char → Bool} (hp : ∀ c, p c.toLower = p c) (q : Quoting)
    (cs : List Char) : (foldUnquoted q cs).rdropWhile p = foldUnquoted q (cs.rdropWhile p) := by
  induction cs using List.reverseRecOn with
  | nil => rfl
  | append_singleton xs c ih =>
    have hlast : foldUnquoted q (xs ++ [c]) = foldUnquoted q xs ++ [(q.after xs).fold c] :=
      foldUnquoted_append ..
    rw [hlast, List.rdropWhile_concat, List.rdropWhile_concat, Quoting.fold_eq hp]
    split
    · exact ih
    · exact hlast.symm

@[simp] theorem trimBlanks_foldUnquoted (cs : List Char) :
    trimBlanks (foldUnquoted .outside cs) = foldUnquoted .outside (trimBlanks cs) := by
  have htrim (xs : List Char) : trimBlanks xs = (skipBlanks xs).rdropWhile isBlank := rfl
  rw [htrim, htrim, skipBlanks_foldUnquoted, rdropWhile_foldUnquoted isBlank_toLower]

theorem getLast?_foldUnquoted {d : Char} (hd : isLetter d = false) (q : Quoting) (cs : List Char) :
    ((foldUnquoted q cs).getLast? == some d) = (cs.getLast? == some d) := by
  -- the last character is only asked whether it is the mark, which its case does not change
  have hlast (xs : List Char) :
      (xs.getLast? == some d) = ((xs.map (· == d)).getLast? == some true) := by
    rw [List.getLast?_map]
    cases xs.getLast? <;> simp
  rw [hlast, hlast cs, map_foldUnquoted (beq_toLower hd)]

theorem head?_foldUnquoted {d : Char} (hd : isLetter d = false) (q : Quoting) (cs : List Char) :
    ((foldUnquoted q cs).head? == some d) = (cs.head? == some d) := by
  cases cs with
  | nil => rfl
  | cons c cs => simp only [foldUnquoted_cons, List.head?_cons, Option.some_beq_some,
      Quoting.fold_beq hd]

theorem dropLast_foldUnquoted (q : Quoting) (cs : List Char) :
    (foldUnquoted q cs).dropLast = foldUnquoted q cs.dropLast := by
  rcases List.eq_nil_or_concat cs with rfl | ⟨xs, c, rfl⟩
  · rfl
  · rw [List.concat_eq_append, foldUnquoted_append, foldUnquoted_cons, foldUnquoted_nil,
      List.dropLast_concat, List.dropLast_concat]

/-! ### Names -/

@[simp] theorem toList_respelled (s : String) :
    (respelled s).toList = foldUnquoted .outside s.toList :=
  String.toList_ofList

theorem respelled_ofList (cs : List Char) :
    respelled (String.ofList cs) = String.ofList (foldUnquoted .outside cs) := by
  rw [respelled, String.toList_ofList]

/-- A name is the same under every spelling. -/
@[simp] theorem sameName_respelled (s : String) : sameName (respelled s) s = true := by
  rw [sameName_iff, foldCase, foldCase, toList_respelled, map_toLower_foldUnquoted]

theorem SameSpelling.sameName {s t : String} (h : SameSpelling s t) : sameName s t = true := by
  have hs := sameName_respelled s
  rw [sameName_comm] at hs
  exact sameName_trans hs (h ▸ sameName_respelled t)

end Roster
