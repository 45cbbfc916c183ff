import Roster.Proofs.Filter.Front
import Roster.Proofs.Filter.Respelled

/-!
Texts of filters that differ in their layout: in the runs of blanks outside of quoted texts, and in
the case of the letters of keywords, operators and values. Where a character stands is told from the
characters in front of it, so that the names of attributes keep their letters.
-/

namespace Roster

namespace Filter

/-- Where in a filter the next character of its text stands, told from the characters before it. -/
inductive Site where
  /-- In front of an operand: an attribute path, a parenthesis or `not`. -/
  | operand
  /-- In an attribute path, or behind a dot of it and before the name that follows. -/
  | path (behindDot : Bool)
  /-- Behind an attribute path, a value or a parenthesis, with the letters of the word that has
  begun: an operator, a value, `pr`, `and` or `or`. -/
  | word (letters : List Char)
  /-- Behind the bracket that ends a selection. -/
  | selected
  /-- In a quoted text. -/
  | text
  /-- In a quoted text behind a backslash. -/
  | escaped
deriving DecidableEq

namespace Site

/-- The place behind a character that belongs to no word and no path. -/
def mark (c : Char) : Site :=
  if c == '"' then .text
  else if c == '(' || c == '[' then .operand
  else if c == ']' then .selected
  else .word []

/-- The place behind the first character of an operand, or a blank in front of it. -/
def start (c : Char) : Site :=
  if isBlank c then .operand
  else if isQualifiedChar c then .path (c == '.')
  else mark c

/-- The words with an operand behind them. -/
def joins (letters : List Char) : Bool :=
  letters == "and".toList || letters == "or".toList

/-- The place behind one more character. -/
def step : Site → Char → Site
  | .operand, c => start c
  | .path behindDot, c =>
    if isQualifiedChar c then .path (c == '.')
    else if behindDot && isBlank c then .path true
    else mark c
  | .word letters, c =>
    if isLetter c then .word (letters ++ [c.toLower])
    else if joins letters then start c
    else mark c
  | .selected, c =>
    if c == '.' then .path true
    else if isLetter c then .word [c.toLower]
    else mark c
  | .text, c =>
    if c == '"' then .word []
    else if c == '\\' then .escaped
    else .text
  | .escaped, _ => .text

/-- Outside of quoted texts. -/
def isOutside : Site → Bool
  | .text | .escaped => false
  | _ => true

/-- Where a letter is one of a keyword, an operator or a value. -/
def isWord : Site → Bool
  | .word _ | .selected => true
  | _ => false

end Site

/-- A run of at least one blank. -/
def IsGap (cs : List Char) : Prop :=
  cs ≠ [] ∧ ∀ c ∈ cs, isBlank c = true

instance (cs : List Char) : Decidable (IsGap cs) :=
  have : Decidable (∀ c ∈ cs, isBlank c = true) := List.decidableBAll _ _
  inferInstanceAs (Decidable (_ ∧ _))

/-- Texts at one place of which the second is the first in another layout. Outside of quoted texts
any run of blanks may stand for another; the letters of keywords, operators and values may have
another case, and so may those of a `not` in front of an operand. All other characters are kept. -/
inductive Relaid : Site → List Char → List Char → Prop where
  | nil {p : Site} : Relaid p [] []
  | keep {p : Site} {c : Char} {xs ys : List Char} (h : Relaid (p.step c) xs ys) :
    Relaid p (c :: xs) (c :: ys)
  | gap {p : Site} {as bs xs ys : List Char} (hp : p.isOutside = true) (ha : IsGap as)
    (hb : IsGap bs) (h : Relaid (p.step ' ') xs ys) : Relaid p (as ++ xs) (bs ++ ys)
  | letter {p : Site} {c d : Char} {xs ys : List Char} (hp : p.isWord = true)
    (hc : isLetter c = true) (hd : d.toLower = c.toLower) (h : Relaid (p.step c) xs ys) :
    Relaid p (c :: xs) (d :: ys)
  | negation {as bs xs ys : List Char} (ha : as.map Char.toLower = "not".toList)
    (hb : bs.map Char.toLower = "not".toList) (hx : Stops xs) (hy : Stops ys)
    (h : Relaid .operand xs ys) : Relaid .operand (as ++ xs) (bs ++ ys)

/-! ### Characters -/

theorem not_isBlank_of_isLetter {c : Char} (h : isLetter c = true) : isBlank c = false :=
  not_isBlank_of_isQualifiedChar (isQualifiedChar_of_isNameChar (isNameChar_of_isLetter h))

theorem not_isLetter_of_isBlank {c : Char} (h : isBlank c = true) : isLetter c = false := by
  rw [Bool.eq_false_iff]
  intro hl
  rw [not_isBlank_of_isLetter hl] at h
  cases h

theorem isLetter_of_toLower_eq {c d : Char} (h : d.toLower = c.toLower) (hc : isLetter c = true) :
    isLetter d = true := by
  rw [← isLetter_toLower, h, isLetter_toLower, hc]

theorem ne_of_isBlank {c d : Char} (h : isBlank c = true) (hd : isBlank d = false) : c ≠ d := by
  rintro rfl
  rw [h] at hd
  cases hd

/-! ### Places -/

@[simp] theorem Site.joins_nil : joins [] = false := rfl

/-- A character that is no letter ends a word. -/
theorem Site.step_word {w : List Char} {c : Char} (hc : isLetter c = false) :
    (Site.word w).step c = if joins w then start c else mark c := by
  simp [step, hc]

theorem Site.mark_blank {c : Char} (h : isBlank c = true) : mark c = .word [] := by
  simp [mark, ne_of_isBlank h (show isBlank '"' = false by decide),
    ne_of_isBlank h (show isBlank '(' = false by decide),
    ne_of_isBlank h (show isBlank '[' = false by decide),
    ne_of_isBlank h (show isBlank ']' = false by decide)]

/-- All blanks lead to one place. -/
theorem Site.step_blank {c : Char} (h : isBlank c = true) (p : Site) :
    p.step c = p.step ' ' := by
  have hspace : isBlank ' ' = true := by decide
  have hmark : mark c = mark ' ' := (mark_blank h).trans (mark_blank hspace).symm
  have hq : isQualifiedChar c = isQualifiedChar ' ' := by
    rw [not_isQualifiedChar_of_isBlank h, not_isQualifiedChar_of_isBlank hspace]
  have hletter : isLetter c = isLetter ' ' := by
    rw [not_isLetter_of_isBlank h, not_isLetter_of_isBlank hspace]
  have hother {d : Char} (hd : isBlank d = false) : (c == d) = (' ' == d) := by
    rw [beq_false_of_ne (ne_of_isBlank h hd), beq_false_of_ne (ne_of_isBlank hspace hd)]
  have hstart : start c = start ' ' := by rw [start, start, h, hspace]; rfl
  cases p with
  | operand => exact hstart
  | path b =>
    simp only [step, hq, not_isQualifiedChar_of_isBlank hspace, h, hspace, hmark]
    rfl
  | word letters =>
    simp only [step, hletter, not_isLetter_of_isBlank hspace, hstart, hmark]
    rfl
  | selected =>
    simp only [step, hother (show isBlank '.' = false by decide), hletter,
      not_isLetter_of_isBlank hspace, hmark]
    rfl
  | text =>
    simp only [step, hother (show isBlank '"' = false by decide),
      hother (show isBlank '\\' = false by decide)]
  | escaped => rfl

/-- Letters of either case lead to one place. -/
theorem Site.step_letter {p : Site} {c d : Char} (hp : p.isWord = true) (hc : isLetter c = true)
    (hd : d.toLower = c.toLower) : p.step d = p.step c := by
  have hletter : isLetter d = true := isLetter_of_toLower_eq hd hc
  have hdot {e : Char} (he : isLetter e = true) : (e == '.') = false := by
    rw [beq_eq_false_iff_ne]
    rintro rfl
    cases he
  cases p with
  | word letters => simp [step, hc, hletter, hd]
  | selected => simp [step, hdot hc, hdot hletter, hc, hletter, hd]
  | operand => cases hp
  | path b => cases hp
  | text => cases hp
  | escaped => cases hp

/-! ### Texts in another layout -/

namespace Relaid

variable {p q : Site} {xs ys : List Char}

theorem symm (h : Relaid p xs ys) : Relaid p ys xs := by
  induction h with
  | nil => exact .nil
  | keep _ ih => exact .keep ih
  | gap hp ha hb _ ih => exact .gap hp hb ha ih
  | letter hp hc hd _ ih =>
    exact .letter hp (isLetter_of_toLower_eq hd hc) hd.symm (Site.step_letter hp hc hd ▸ ih)
  | negation ha hb hx hy _ ih => exact .negation hb ha hy hx ih

/-- The first characters are of one kind, for kinds that look at neither case nor the form of a
blank. -/
theorem front {P : Char → Bool} (hblank : ∀ c, isBlank c = true → P c = P ' ')
    (hlower : ∀ c, P c.toLower = P c) (h : Relaid p xs ys) :
    xs.head?.any P = ys.head?.any P := by
  have hgap {as : List Char} (ha : IsGap as) (zs : List Char) :
      (as ++ zs).head?.any P = P ' ' := by
    obtain ⟨c, as, rfl⟩ := List.exists_cons_of_ne_nil ha.1
    exact hblank c (ha.2 c List.mem_cons_self)
  have hnot {as : List Char} (ha : as.map Char.toLower = "not".toList) (zs : List Char) :
      (as ++ zs).head?.any P = P 'n' := by
    obtain ⟨c, as, rfl, hc, -⟩ := List.map_eq_cons_iff.mp ha
    have hfirst := hlower c
    rw [hc] at hfirst
    exact hfirst.symm
  cases h with
  | nil => rfl
  | keep => rfl
  | gap _ ha hb => rw [hgap ha, hgap hb]
  | letter _ _ hd =>
    rw [List.head?_cons, List.head?_cons, Option.any_some, Option.any_some, ← hlower, ← hd, hlower]
  | negation ha hb => rw [hnot ha, hnot hb]

theorem eq_nil (h : Relaid p [] ys) : ys = [] := by
  have hany := h.front (P := fun _ => true) (fun _ _ => rfl) (fun _ => rfl)
  cases ys with
  | nil => rfl
  | cons => cases hany

/-- The first characters are of a kind together, where characters of the kind are those of names and
paths and look at no case. -/
theorem front_qualified {P : Char → Bool} (hP : ∀ c, P c = true → isQualifiedChar c = true)
    (hlower : ∀ c, P c.toLower = P c) (h : Relaid p xs ys) :
    (∀ c ∈ xs.head?, P c = false) ↔ ∀ c ∈ ys.head?, P c = false := by
  have hblank (c : Char) (hc : isBlank c = true) : P c = false := by
    rw [Bool.eq_false_iff]
    intro hq
    rw [not_isBlank_of_isQualifiedChar (hP c hq)] at hc
    cases hc
  have hany := h.front (fun c hc => (hblank c hc).trans (hblank ' ' (by decide)).symm) hlower
  have hiff (zs : List Char) : (∀ c ∈ zs.head?, P c = false) ↔ zs.head?.any P = false := by
    cases zs <;> simp
  rw [hiff, hiff, hany]

/-- The rest of two texts behind a character, which is no blank unless it is quoted, and which is
the same up to the case of a letter of a word. -/
theorem uncons {c : Char} (h : Relaid p (c :: xs) ys) (hc : p.isOutside = true → isBlank c = false)
    (hp : p ≠ .operand) : ∃ d zs, ys = d :: zs ∧ Relaid (p.step c) xs zs ∧
      d.toLower = c.toLower ∧ (d ≠ c → p.isWord = true ∧ isLetter c = true) := by
  generalize hcs : c :: xs = cs at h
  cases h with
  | nil => cases hcs
  | keep h =>
    cases hcs
    exact ⟨c, _, rfl, h, rfl, fun hne => absurd rfl hne⟩
  | gap hout ha =>
    obtain ⟨a, as, rfl⟩ := List.exists_cons_of_ne_nil ha.1
    cases hcs
    have hblank := hc hout
    rw [ha.2 c List.mem_cons_self] at hblank
    cases hblank
  | letter hp hc hd h =>
    cases hcs
    exact ⟨_, _, rfl, h, hd, fun _ => ⟨hp, hc⟩⟩
  | negation => exact absurd rfl hp

/-- A character that is no letter of a word is the same in both texts. -/
theorem uncons_eq {c : Char} (h : Relaid p (c :: xs) ys)
    (hc : p.isOutside = true → isBlank c = false) (hp : p ≠ .operand)
    (hsame : p.isWord = false ∨ isLetter c = false) :
    ∃ zs, ys = c :: zs ∧ Relaid (p.step c) xs zs := by
  obtain ⟨d, zs, rfl, hrest, -, hd⟩ := h.uncons hc hp
  by_cases hne : d = c
  · exact ⟨zs, by rw [hne], hrest⟩
  · obtain ⟨hword, hletter⟩ := hd hne
    rw [hword, hletter] at hsame
    rcases hsame with hsame | hsame <;> cases hsame

/-- A mark that does not stand first does so in no layout. -/
theorem ne_cons {m : Char} (h : Relaid p xs ys) (hm : isBlank m = false ∧ isLetter m = false)
    (hp : p ≠ .operand) (hxs : ∀ rest, xs ≠ m :: rest) (rest : List Char) : ys ≠ m :: rest := by
  rintro rfl
  obtain ⟨more, rfl, -⟩ := h.symm.uncons_eq (fun _ => hm.1) hp (.inr hm.2)
  exact hxs more rfl

/-- Places may be exchanged from which the first character leads to one place. -/
theorem shift (h : Relaid p xs ys) (hp : p = .operand → keyword? "not" xs = none)
    (hq : q.isOutside = true) (hstep : ∀ c ∈ xs.head?, p.step c = q.step c)
    (hword : p.isWord = true → ∀ c ∈ xs.head?, isLetter c = true → q.isWord = true) :
    Relaid q xs ys := by
  cases h with
  | nil => exact .nil
  | keep h =>
    rw [hstep _ rfl] at h
    exact .keep h
  | gap _ ha hb h =>
    obtain ⟨a, as, rfl⟩ := List.exists_cons_of_ne_nil ha.1
    have hblank := ha.2 a List.mem_cons_self
    have hfirst := hstep a rfl
    rw [p.step_blank hblank, q.step_blank hblank] at hfirst
    rw [hfirst] at h
    exact .gap hq ha hb h
  | letter hw hc hd h =>
    rw [hstep _ rfl] at h
    exact .letter (hword hw _ rfl hc) hc hd h
  | @negation as _ xs _ ha _ hx =>
    have hw : IsKeyword "not" := by decide
    have hletters : as.all isLetter = true := List.all_eq_true.mpr fun c hc => hw.letter ha hc
    have hname := isAttributeName_of_letters (hw.written ha) hletters
    have hread := keyword?_anyCase hname ha hx
    rw [hp rfl] at hread
    cases hread

/-- Leading blanks are skipped in both texts, at a place where they change nothing. -/
theorem skip (h : Relaid p xs ys) (hp : p.step ' ' = p) :
    Relaid p (skipBlanks xs) (skipBlanks ys) := by
  induction h with
  | nil => exact .nil
  | @keep p c xs ys h ih =>
    cases hc : isBlank c with
    | false =>
      rw [skipBlanks_cons _ hc, skipBlanks_cons _ hc]
      exact .keep h
    | true =>
      have hstep : p.step c = p := (p.step_blank hc).trans hp
      have hskip (zs : List Char) : skipBlanks (c :: zs) = skipBlanks zs := by
        simp [skipBlanks, hc]
      rw [hstep] at ih
      rw [hskip, hskip]
      exact ih hp
  | gap _ ha hb _ ih =>
    rw [skipBlanks_blanks (skipBlanks_eq_nil.mpr ha.2),
      skipBlanks_blanks (skipBlanks_eq_nil.mpr hb.2)]
    rw [hp] at ih
    exact ih hp
  | @letter p c d xs ys hw hc hd h =>
    have hletter : isLetter d = true := isLetter_of_toLower_eq hd hc
    rw [skipBlanks_cons _ (not_isBlank_of_isLetter hc),
      skipBlanks_cons _ (not_isBlank_of_isLetter hletter)]
    exact .letter hw hc hd h
  | @negation as bs xs ys ha hb hx hy h =>
    have hself {cs : List Char} (hcs : cs.map Char.toLower = "not".toList) (zs : List Char) :
        skipBlanks (cs ++ zs) = cs ++ zs := by
      obtain ⟨c, cs, rfl, hc, -⟩ := List.map_eq_cons_iff.mp hcs
      have hblank := isBlank_toLower c
      rw [hc] at hblank
      exact skipBlanks_cons _ hblank.symm
    rw [hself ha, hself hb]
    exact .negation ha hb hx hy h

/-! ### Words -/

variable {front rest w : List Char} {b : Bool} {word : String}

/-- The letters of a word are those of the other layout, up to case. -/
theorem letters (h : Relaid (.word w) (front ++ xs) ys)
    (hfront : ∀ c ∈ front, isLetter c = true) :
    ∃ back zs, ys = back ++ zs ∧ back.map Char.toLower = front.map Char.toLower ∧
      Relaid (.word (w ++ front.map Char.toLower)) xs zs := by
  induction front generalizing w ys with
  | nil => exact ⟨[], ys, rfl, rfl, by simpa using h⟩
  | cons c front ih =>
    have hc := hfront c List.mem_cons_self
    obtain ⟨d, zs, rfl, hrest, hlower, -⟩ :=
      h.uncons (fun _ => not_isBlank_of_isLetter hc) (by simp)
    have hstep : (Site.word w).step c = .word (w ++ [c.toLower]) := by simp [Site.step, hc]
    rw [hstep] at hrest
    obtain ⟨back, more, rfl, hback, hmore⟩ :=
      ih hrest fun e he => hfront e (List.mem_cons_of_mem c he)
    refine ⟨d :: back, more, rfl, ?_, by simpa using hmore⟩
    rw [List.map_cons, List.map_cons, hlower, hback]

/-- Behind a word, which ends where no letter follows, is an operand or another word. -/
theorem behindWord (h : Relaid (.word w) xs ys) (hx : ∀ c ∈ xs.head?, isLetter c = false) :
    Relaid (if Site.joins w then .operand else .word []) xs ys := by
  refine h.shift (fun heq => by cases heq) (by split <;> rfl) (fun c hc => ?_)
    (fun _ c hc hletter => ?_)
  · rw [Site.step_word (hx c hc)]
    split
    · rfl
    · simp [Site.step_word (hx c hc)]
  · rw [hx c hc] at hletter
    cases hletter

/-- Between words, blanks are skipped in both texts. -/
theorem skipWord (h : Relaid (.word []) xs ys) :
    Relaid (.word []) (skipBlanks xs) (skipBlanks ys) := h.skip rfl

/-- What may not stand behind a keyword stands behind it in neither layout. -/
theorem ends (h : Relaid p xs ys)
    (hx : ∀ c ∈ xs.head?, isNameChar c = false ∧ c ≠ '.' ∧ c ≠ ':') :
    ∀ c ∈ ys.head?, isNameChar c = false ∧ c ≠ '.' ∧ c ≠ ':' := by
  have hsplit (c : Char) : (isNameChar c || c == '.' || c == ':') = false ↔
      isNameChar c = false ∧ c ≠ '.' ∧ c ≠ ':' := by
    simp [and_assoc]
  have hfirst := h.front_qualified (P := fun c => isNameChar c || c == '.' || c == ':')
    (fun c hc => by
      simp only [Bool.or_eq_true, beq_iff_eq] at hc
      rcases hc with (hc | rfl) | rfl
      · exact isQualifiedChar_of_isNameChar hc
      · decide
      · decide)
    (fun c => by
      simp only [isNameChar_toLower, beq_toLower (show isLetter '.' = false by decide),
        beq_toLower (show isLetter ':' = false by decide)])
  simp only [hsplit] at hfirst
  exact hfirst.mp hx

theorem keyword (hw : IsKeyword word) (h : Relaid (.word []) xs ys)
    (hk : keyword? word xs = some rest) : ∃ rest', keyword? word ys = some rest' ∧
      Relaid (if Site.joins word.toList then .operand else .word []) rest rest' := by
  obtain ⟨front, hxs, hfront, hends⟩ := keyword?_iff.mp hk
  have hskip := h.skipWord
  rw [hxs] at hskip
  obtain ⟨back, rest', hys, hback, hrest⟩ := hskip.letters fun c hc => hw.letter hfront hc
  refine ⟨rest', keyword?_iff.mpr ⟨back, hys, hback.trans hfront, hrest.ends hends⟩, ?_⟩
  rw [List.nil_append, hfront] at hrest
  refine hrest.behindWord fun c hc => ?_
  rw [Bool.eq_false_iff]
  intro hletter
  have hname := isNameChar_of_isLetter hletter
  rw [(hends c hc).1] at hname
  cases hname

/-- A word that is not there is not there in the other layout. -/
theorem keyword_none (hw : IsKeyword word) (h : Relaid (.word []) xs ys)
    (hk : keyword? word xs = none) : keyword? word ys = none := by
  rw [Option.eq_none_iff_forall_ne_some]
  intro rest hread
  obtain ⟨rest', hread', -⟩ := h.symm.keyword hw hread
  rw [hk] at hread'
  cases hread'

theorem keyword_cases (hw : IsKeyword word) (h : Relaid (.word []) xs ys) :
    (∃ rest rest', keyword? word xs = some rest ∧ keyword? word ys = some rest' ∧
      Relaid (if Site.joins word.toList then .operand else .word []) rest rest') ∨
    keyword? word xs = none ∧ keyword? word ys = none := by
  cases hk : keyword? word xs with
  | none => exact .inr ⟨rfl, h.keyword_none hw hk⟩
  | some rest =>
    obtain ⟨rest', hk', hrest⟩ := h.keyword hw hk
    exact .inl ⟨rest, rest', rfl, hk', hrest⟩

/-! ### Paths -/

/-- The characters of a path are those of the other layout. -/
theorem qualified (h : Relaid (.path b) (front ++ xs) ys)
    (hfront : ∀ c ∈ front, isQualifiedChar c = true) : ∃ zs, ys = front ++ zs ∧
      Relaid (.path (front.foldl (fun _ c => c == '.') b)) xs zs := by
  induction front generalizing b ys with
  | nil => exact ⟨ys, rfl, h⟩
  | cons c front ih =>
    have hc := hfront c List.mem_cons_self
    obtain ⟨zs, rfl, hrest⟩ :=
      h.uncons_eq (fun _ => not_isBlank_of_isQualifiedChar hc) (by simp) (.inl rfl)
    have hstep : (Site.path b).step c = .path (c == '.') := by simp [Site.step, hc]
    rw [hstep] at hrest
    obtain ⟨more, rfl, hmore⟩ := ih hrest fun e he => hfront e (List.mem_cons_of_mem c he)
    exact ⟨more, rfl, hmore⟩

/-- A path whose last character is no dot is at an end. -/
theorem qualified_end {c : Char} (h : Relaid (.path b) (front ++ c :: xs) ys)
    (hfront : ∀ d ∈ front ++ [c], isQualifiedChar d = true) (hc : c ≠ '.') :
    ∃ zs, ys = front ++ c :: zs ∧ Relaid (.path false) xs zs := by
  rw [List.append_cons] at h
  obtain ⟨zs, rfl, hrest⟩ := h.qualified hfront
  rw [List.foldl_append, List.foldl_cons, List.foldl_nil, beq_false_of_ne hc] at hrest
  exact ⟨zs, by simp, hrest⟩

/-- Behind a path that no character of a path follows is a word. -/
theorem behindPath (h : Relaid (.path false) xs ys) (hx : Stops xs) : Relaid (.word []) xs ys := by
  have hletter {c : Char} (hq : isQualifiedChar c = false) : isLetter c = false := by
    rw [Bool.eq_false_iff]
    intro hl
    rw [isQualifiedChar_of_isNameChar (isNameChar_of_isLetter hl)] at hq
    cases hq
  refine h.shift (fun heq => by cases heq) rfl (fun c hc => ?_) (fun hword => by cases hword)
  simp [Site.step, hx c hc, hletter (hx c hc)]

/-- An operand that begins with neither a blank nor `not` begins as a path does behind its dot. -/
theorem behindOperand (h : Relaid .operand xs ys) (hx : ∀ c ∈ xs.head?, isBlank c = false)
    (hnot : keyword? "not" xs = none) : Relaid (.path true) xs ys := by
  refine h.shift (fun _ => hnot) rfl (fun c hc => ?_) (fun hword => by cases hword)
  simp [Site.step, Site.start, hx c hc]

end Relaid

end Filter

end Roster
