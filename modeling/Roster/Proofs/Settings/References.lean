import Mathlib.Data.List.TakeWhile
import Roster.Proofs.Success
import Roster.Settings.Environment

/-!
What is replaced in the text of settings. A comment begins at a `#` outside of strings, and the
references in front of it are to be replaced; those behind a `#` in a string are not. Strings end on
the line on which they begin.
-/

namespace Roster

/-! ### Strings and comments -/

/-- What a character of a line is in. -/
inductive Region where
  | plain
  | basic
  | escaped
  | literal
  | comment
deriving DecidableEq

/-- What the character behind one is in. -/
def Region.step : Region → Char → Region
  | .plain, '"' => .basic
  | .plain, '\'' => .literal
  | .plain, '#' => .comment
  | .basic, '"' => .plain
  | .basic, '\\' => .escaped
  | .escaped, _ => .basic
  | .literal, '\'' => .plain
  | r, _ => r

/-! ### The pieces of a line -/

/-- A piece of a line: one character, or a reference outside the comment. -/
inductive Piece where
  | char (c : Char)
  | reference (name : List Char)
deriving DecidableEq

namespace Piece

/-- The characters of a piece. -/
def text : Piece → List Char
  | .char c => [c]
  | .reference name => '$' :: '\x7b' :: (name ++ ['\x7d'])

def isReference : Piece → Bool
  | .char _ => false
  | .reference _ => true

/-- What stands for a piece in an environment; none where a variable is missing. -/
def value? (env : Environment) : Piece → Option (List Char)
  | .char c => some [c]
  | .reference name => (env (String.ofList name)).map String.toList

end Piece

/-- The pieces of what is left of a line, when its first `skip` characters belong to a reference. -/
def pieces : Region → Nat → List Char → List Piece
  | _, _, [] => []
  | r, skip + 1, c :: cs => pieces (r.step c) skip cs
  | r, 0, c :: cs =>
    match if r = .comment then none else reference? (c :: cs) with
    | some (name, _) => .reference name :: pieces (r.step c) (name.length + 2) cs
    | none => .char c :: pieces (r.step c) 0 cs

/-- The line with every reference outside its comment replaced, once. -/
def interpolateLine? (env : Environment) (line : List Char) : Option (List Char) :=
  ((pieces .plain 0 line).mapM (Piece.value? env)).map List.flatten

/-- Lines end with a line feed alone. -/
def unixEnds : List Char → List Char
  | '\r' :: '\n' :: cs => '\n' :: unixEnds cs
  | c :: cs => c :: unixEnds cs
  | [] => []

def linesOf (text : List Char) : List (List Char) :=
  (unixEnds text).splitOn '\n'

/-- The text with every reference outside comments replaced, once; none where a variable is
missing. -/
def interpolate? (env : Environment) (text : String) : Option String :=
  ((linesOf text.toList).mapM (interpolateLine? env)).map fun lines =>
    String.ofList (['\n'].intercalate lines)

/-- No reference stands behind a `#`. The first piece with a `#` may be one itself. -/
def Unhidden (ps : List Piece) : Prop :=
  ∀ p ∈ (ps.dropWhile fun p => '#' ∉ p.text).tail, p.isReference = false

instance (ps : List Piece) : Decidable (Unhidden ps) :=
  inferInstanceAs (Decidable (∀ p ∈ _, _))

/-! ### Pieces and their text -/

theorem reference?_eq_some {cs name rest : List Char} (h : reference? cs = some (name, rest)) :
    cs = (Piece.reference name).text ++ rest := by
  unfold reference? at h
  split at h
  case h_1 cs =>
    split at h
    case h_1 c more hdrop =>
      dsimp only at h
      split at h
      case isTrue => cases h
      case isFalse =>
        cases h
        have hbrace : c = '\x7d' := by
          have hhead := List.head?_dropWhile_not (· != '\x7d') cs
          simpa [hdrop] using hhead
        have hsplit := List.takeWhile_append_dropWhile (p := (· != '\x7d')) (l := cs)
        rw [hdrop, hbrace] at hsplit
        simp [Piece.text, hsplit]
    case h_2 => cases h
  case h_2 => cases h

/-- The characters of a reference are passed over. -/
theorem pieces_skip (r : Region) (xs cs : List Char) :
    pieces r xs.length (xs ++ cs) = pieces (xs.foldl Region.step r) 0 cs := by
  induction xs generalizing r with
  | nil => rfl
  | cons x xs ih => exact ih (r.step x)

theorem pieces_reference {r : Region} {cs name rest : List Char} (hr : r ≠ .comment)
    (h : reference? cs = some (name, rest)) :
    pieces r 0 cs = .reference name ::
      pieces ((Piece.reference name).text.foldl Region.step r) 0 rest := by
  have hskip := pieces_skip (r.step '$') ('\x7b' :: (name ++ ['\x7d'])) rest
  have hlength : ('\x7b' :: (name ++ ['\x7d'])).length = name.length + 2 := by simp
  rw [hlength] at hskip
  have hcs : cs = '$' :: ('\x7b' :: (name ++ ['\x7d']) ++ rest) := reference?_eq_some h
  rw [hcs] at h ⊢
  rw [pieces, if_neg hr, h]
  exact congrArg _ hskip

theorem pieces_char {r : Region} {c : Char} {cs : List Char}
    (h : r = .comment ∨ reference? (c :: cs) = none) :
    pieces r 0 (c :: cs) = .char c :: pieces (r.step c) 0 cs := by
  have hnone : (if r = .comment then none else reference? (c :: cs)) = none := by
    rcases h with h | h <;> simp [h]
  rw [pieces, hnone]

/-- The pieces of a line have its characters. -/
theorem text_pieces (r : Region) (skip : Nat) (cs : List Char) :
    (pieces r skip cs).flatMap Piece.text = cs.drop skip := by
  induction cs generalizing r skip with
  | nil => simp [pieces]
  | cons c cs ih =>
    cases skip with
    | succ skip => exact ih (r.step c) skip
    | zero =>
      rw [pieces]
      cases href : if r = .comment then none else reference? (c :: cs) with
      | none =>
        rw [List.flatMap_cons, ih]
        rfl
      | some found =>
        obtain ⟨name, rest⟩ := found
        split_ifs at href
        have hcs := reference?_eq_some href
        have hlength : ('$' :: '\x7b' :: (name ++ ['\x7d'])).length = name.length + 3 := by simp
        have hdrop : cs.drop (name.length + 2) = rest := by
          change (c :: cs).drop (name.length + 3) = rest
          rw [hcs, Piece.text, ← hlength, List.drop_left]
        rw [List.flatMap_cons, ih, hdrop, List.drop_zero]
        exact hcs.symm

/-- A comment begins at a `#`. -/
theorem step_ne_comment {r : Region} {c : Char} (hr : r ≠ .comment) (hc : c ≠ '#') :
    r.step c ≠ .comment := by
  unfold Region.step
  split <;> simp_all

theorem foldl_ne_comment {r : Region} {cs : List Char} (hr : r ≠ .comment) (hcs : '#' ∉ cs) :
    cs.foldl Region.step r ≠ .comment := by
  induction cs generalizing r with
  | nil => exact hr
  | cons c cs ih =>
    rw [List.mem_cons, not_or] at hcs
    exact ih (step_ne_comment hr (Ne.symm hcs.1)) hcs.2

/-! ### What a line becomes -/

/-- The values of pieces up to the first with a `#` in it, and the others as they are. -/
def expandPieces? (env : Environment) : List Piece → Option (List Char)
  | [] => some []
  | p :: ps => do
    let value ← p.value? env
    let rest ← if '#' ∈ p.text then some (ps.flatMap Piece.text) else expandPieces? env ps
    some (value ++ rest)

theorem expandLine_reference {env : Environment} {fuel : Nat} {cs name rest : List Char}
    (h : reference? cs = some (name, rest)) :
    (expandLine env (fuel + 1) cs).toOption = (env (String.ofList name)).bind fun value =>
      (if '#' ∈ name then some rest else (expandLine env fuel rest).toOption).map
        (value.toList ++ ·) := by
  conv => lhs; unfold expandLine
  simp only [h, List.contains_iff_mem]
  cases env (String.ofList name) with
  | none => rfl
  | some value =>
    split_ifs
    · rfl
    · cases expandLine env fuel rest <;> rfl

theorem expandLine_char {env : Environment} {fuel : Nat} {c : Char} {cs : List Char}
    (h : reference? (c :: cs) = none) :
    (expandLine env (fuel + 1) (c :: cs)).toOption =
      (if c = '#' then some cs else (expandLine env fuel cs).toOption).map (c :: ·) := by
  conv => lhs; unfold expandLine
  simp only [h, beq_iff_eq]
  split_ifs
  · rfl
  · cases expandLine env fuel cs <;> rfl

theorem expandLine_eq (env : Environment) {fuel : Nat} {r : Region} {cs : List Char}
    (hr : r ≠ .comment) (hfuel : cs.length ≤ fuel) :
    (expandLine env fuel cs).toOption = expandPieces? env (pieces r 0 cs) := by
  induction fuel generalizing r cs with
  | zero =>
    obtain rfl := List.eq_nil_of_length_eq_zero (Nat.le_zero.mp hfuel)
    rfl
  | succ fuel ih =>
    cases href : reference? cs with
    | some found =>
      obtain ⟨name, rest⟩ := found
      have hrest : rest.length ≤ fuel := by
        have hlength := congrArg List.length (reference?_eq_some href)
        simp [Piece.text] at hlength
        omega
      have hmark : '#' ∈ (Piece.reference name).text ↔ '#' ∈ name := by simp [Piece.text]
      rw [pieces_reference hr href, expandLine_reference href]
      simp only [expandPieces?, Piece.value?, hmark, text_pieces, List.drop_zero]
      by_cases hname : '#' ∈ name
      · cases env (String.ofList name) <;> simp [hname]
      · rw [ih (foldl_ne_comment hr (hmark.not.mpr hname)) hrest]
        cases env (String.ofList name) <;> simp [hname, Option.map_eq_bind, Function.comp_def]
    | none =>
      cases cs with
      | nil =>
        unfold expandLine
        rw [href]
        rfl
      | cons c cs =>
        rw [pieces_char (.inr href), expandLine_char href]
        simp only [expandPieces?, Piece.value?, Piece.text, text_pieces, List.drop_zero,
          List.mem_singleton]
        by_cases hc : c = '#'
        · simp [hc]
        · rw [ih (step_ne_comment hr hc) (Nat.le_of_succ_le_succ hfuel)]
          simp [hc, Ne.symm hc, Option.map_eq_bind, Function.comp_def]

theorem unhidden_cons {p : Piece} {ps : List Piece} : Unhidden (p :: ps) ↔
    if '#' ∈ p.text then ∀ q ∈ ps, q.isReference = false else Unhidden ps := by
  unfold Unhidden
  rw [List.dropWhile_cons]
  split_ifs <;> simp_all

theorem mapM_eq_map {α β : Type} {f : α → Option β} {g : α → β} {xs : List α}
    (h : ∀ x ∈ xs, f x = some (g x)) : xs.mapM f = some (xs.map g) := by
  induction xs with
  | nil => rfl
  | cons x xs ih =>
    rw [List.mapM_cons, h x List.mem_cons_self, ih fun y hy => h y (List.mem_cons_of_mem x hy)]
    rfl

theorem mapM_congr {α β : Type} {f g : α → Option β} {xs : List α} (h : ∀ x ∈ xs, f x = g x) :
    xs.mapM f = xs.mapM g := by
  induction xs with
  | nil => rfl
  | cons x xs ih =>
    rw [List.mapM_cons, List.mapM_cons, h x List.mem_cons_self,
      ih fun y hy => h y (List.mem_cons_of_mem x hy)]

/-- Characters stand for themselves. -/
theorem mapM_value?_chars (env : Environment) {ps : List Piece}
    (h : ∀ p ∈ ps, p.isReference = false) :
    ps.mapM (Piece.value? env) = some (ps.map Piece.text) := by
  refine mapM_eq_map fun p hp => ?_
  have hchar := h p hp
  cases p with
  | char c => rfl
  | reference name => cases hchar

/-- Unless a reference stands behind a `#`, all are replaced. -/
theorem expandPieces?_unhidden (env : Environment) {ps : List Piece} (h : Unhidden ps) :
    expandPieces? env ps = (ps.mapM (Piece.value? env)).map List.flatten := by
  induction ps with
  | nil => rfl
  | cons p ps ih =>
    rw [unhidden_cons] at h
    rw [expandPieces?, List.mapM_cons]
    cases p.value? env with
    | none => rfl
    | some value =>
      split_ifs at h ⊢ with hmark
      · rw [mapM_value?_chars env h]
        rfl
      · rw [ih h]
        cases ps.mapM (Piece.value? env) <;> rfl

/-- An environment in which every variable is empty. -/
def blank : Environment := fun _ => some ""

/-- What is left of a piece where every variable is empty. -/
def Piece.rest (p : Piece) : List Char :=
  if p.isReference then [] else p.text

theorem value?_blank (p : Piece) : p.value? blank = some p.rest := by
  cases p <;> rfl

/-- Where every variable is empty, a line with a reference loses characters. -/
theorem length_rest_le (ps : List Piece) :
    (ps.flatMap Piece.rest).length ≤ (ps.flatMap Piece.text).length ∧
      ((ps.flatMap Piece.rest).length = (ps.flatMap Piece.text).length →
        ∀ p ∈ ps, p.isReference = false) := by
  induction ps with
  | nil => simp
  | cons p ps ih =>
    cases p with
    | char c => simpa [Piece.rest, Piece.text, Piece.isReference] using ih
    | reference name =>
      simp only [List.flatMap_cons, List.length_append, Piece.rest, Piece.text, Piece.isReference,
        if_true, List.length_nil, List.length_cons]
      omega

/-- What pieces become where every variable is empty. -/
def kept : List Piece → List Char
  | [] => []
  | p :: ps => p.rest ++ if '#' ∈ p.text then ps.flatMap Piece.text else kept ps

theorem expandPieces?_blank (ps : List Piece) : expandPieces? blank ps = some (kept ps) := by
  induction ps with
  | nil => rfl
  | cons p ps ih =>
    rw [expandPieces?, value?_blank, ih, kept]
    split_ifs <;> rfl

/-- A reference behind a `#` stays, and so does not become empty. -/
theorem length_kept (ps : List Piece) :
    (ps.flatMap Piece.rest).length ≤ (kept ps).length ∧
      ((ps.flatMap Piece.rest).length = (kept ps).length → Unhidden ps) := by
  induction ps with
  | nil => simp [kept, Unhidden]
  | cons p ps ih =>
    rw [unhidden_cons, kept, List.flatMap_cons, List.length_append, List.length_append]
    split_ifs
    · simpa using length_rest_le ps
    · simpa using ih

/-! ### Lines -/

theorem unixEnds_cons {c d : Char} (cs : List Char) (h : d ≠ '\n') :
    unixEnds (c :: d :: cs) = c :: unixEnds (d :: cs) := by
  rw [unixEnds]
  rintro more rfl ⟨⟩
  exact h rfl

theorem unixEnds_of_not_mem {cs : List Char} (h : '\n' ∉ cs) : unixEnds cs = cs := by
  induction cs with
  | nil => rfl
  | cons c cs ih =>
    rw [List.mem_cons, not_or] at h
    cases cs with
    | nil => simp [unixEnds]
    | cons d cs =>
      rw [unixEnds_cons cs fun hd => h.2 (hd ▸ List.mem_cons_self), ih h.2]

/-- A carriage return goes with the line feed behind it. -/
theorem unixEnds_line {line : List Char} (h : '\n' ∉ line) (rest : List Char) :
    unixEnds (line ++ '\n' :: rest) = dropReturn line ++ '\n' :: unixEnds rest := by
  induction line with
  | nil => simp [unixEnds, dropReturn]
  | cons c cs ih =>
    rw [List.mem_cons, not_or] at h
    cases cs with
    | nil =>
      by_cases hc : c = '\r'
      · simp [hc, unixEnds, dropReturn]
      · simp [hc, unixEnds, dropReturn]
    | cons d cs =>
      have hreturn : dropReturn (c :: d :: cs) = c :: dropReturn (d :: cs) := by
        simp only [dropReturn, List.getLast?_cons_cons, List.dropLast_cons_cons]
        split_ifs <;> rfl
      rw [hreturn, List.cons_append, List.cons_append, unixEnds_cons _ fun hd =>
        h.2 (hd ▸ List.mem_cons_self), ← List.cons_append, ih h.2, List.cons_append]

theorem splitLine?_eq_none {cs : List Char} (h : splitLine? cs = none) : '\n' ∉ cs := by
  unfold splitLine? at h
  split at h
  case h_1 => cases h
  case h_2 hdrop =>
    intro hmem
    exact absurd (List.dropWhile_eq_nil_iff.mp hdrop '\n' hmem) (by decide)

theorem splitLine?_eq_some {cs line rest : List Char} (h : splitLine? cs = some (line, rest)) :
    cs = line ++ '\n' :: rest ∧ '\n' ∉ line := by
  unfold splitLine? at h
  split at h
  case h_1 c more hdrop =>
    cases h
    have hfeed : c = '\n' := by
      have hhead := List.head?_dropWhile_not (· != '\n') cs
      simpa [hdrop] using hhead
    have hsplit := List.takeWhile_append_dropWhile (p := (· != '\n')) (l := cs)
    rw [hdrop, hfeed] at hsplit
    refine ⟨hsplit.symm, fun hmem => ?_⟩
    exact absurd (List.mem_takeWhile_imp hmem) (by decide)
  case h_2 => cases h

theorem linesOf_single {cs : List Char} (h : '\n' ∉ cs) : linesOf cs = [cs] := by
  rw [linesOf, unixEnds_of_not_mem h, List.splitOn_eq_singleton h]

theorem linesOf_cons {line : List Char} (h : '\n' ∉ line) (rest : List Char) :
    linesOf (line ++ '\n' :: rest) = dropReturn line :: linesOf rest := by
  have hline : '\n' ∉ dropReturn line := by
    unfold dropReturn
    split_ifs
    · exact fun hmem => h ((List.dropLast_sublist line).subset hmem)
    · exact h
  rw [linesOf, unixEnds_line h]
  exact List.splitOn_append_cons_self_of_not_mem hline _

theorem linesOf_ne_nil (cs : List Char) : linesOf cs ≠ [] :=
  List.splitOn_ne_nil _ _

/-- Lines are replaced one by one. -/
theorem expandLines_eq (env : Environment) {fuel : Nat} {cs : List Char} (h : cs.length < fuel) :
    (expandLines env fuel cs).toOption =
      ((linesOf cs).mapM fun line => expandPieces? env (pieces .plain 0 line)).map
        ['\n'].intercalate := by
  induction fuel generalizing cs with
  | zero => omega
  | succ fuel ih =>
    have hplain {line : List Char} : (expandLine env line.length line).toOption =
        expandPieces? env (pieces .plain 0 line) := expandLine_eq env (by decide) (Nat.le_refl _)
    unfold expandLines
    cases hsplit : splitLine? cs with
    | none =>
      rw [linesOf_single (splitLine?_eq_none hsplit), List.mapM_cons, List.mapM_nil, ← hplain]
      cases expandLine env cs.length cs <;> simp [Except.toOption]
    | some found =>
      obtain ⟨line, rest⟩ := found
      obtain ⟨rfl, hline⟩ := splitLine?_eq_some hsplit
      have hrest : rest.length < fuel := by
        simp at h
        omega
      have hlines := ih hrest
      rw [linesOf_cons hline, List.mapM_cons, ← hplain]
      dsimp only
      obtain ⟨first, others, hfirst⟩ := List.exists_cons_of_ne_nil (linesOf_ne_nil rest)
      rw [hfirst, List.mapM_cons] at hlines ⊢
      cases expandLine env (dropReturn line).length (dropReturn line) with
      | error e => rfl
      | ok out =>
        revert hlines
        cases expandPieces? env (pieces .plain 0 first) with
        | none => cases expandLines env fuel rest <;> simp [Except.toOption, bind, Except.bind]
        | some value =>
          cases others.mapM fun line => expandPieces? env (pieces .plain 0 line) with
          | none => cases expandLines env fuel rest <;> simp [Except.toOption, bind, Except.bind]
          | some values =>
            cases expandLines env fuel rest with
            | error e => simp [Except.toOption]
            | ok more =>
              intro hlines
              have hmore : more = ['\n'].intercalate (value :: values) := by
                simpa [Except.toOption] using hlines
              simp [Except.toOption, bind, Except.bind, hmore]

/-! ### Texts -/

theorem expandText_eq (env : Environment) (text : String) :
    (expandText env text).toOption =
      ((linesOf text.toList).mapM fun line => expandPieces? env (pieces .plain 0 line)).map
        fun lines => String.ofList (['\n'].intercalate lines) := by
  have hlines := expandLines_eq env (Nat.lt_succ_self text.toList.length)
  rw [String.length_toList] at hlines
  have hmap : (expandText env text).toOption =
      (expandLines env (text.length + 1) text.toList).toOption.map String.ofList := by
    rw [expandText]
    cases expandLines env (text.length + 1) text.toList <;> rfl
  rw [hmap, hlines, Option.map_map]
  rfl

theorem interpolate?_blank (text : String) :
    interpolate? blank text = some (String.ofList (['\n'].intercalate
      ((linesOf text.toList).map fun line => (pieces .plain 0 line).flatMap Piece.rest))) := by
  have hline (line : List Char) :
      interpolateLine? blank line = some ((pieces .plain 0 line).flatMap Piece.rest) := by
    rw [interpolateLine?, mapM_eq_map fun p _ => value?_blank p, List.flatMap_def]
    rfl
  rw [interpolate?, mapM_eq_map fun line _ => hline line]
  rfl

theorem expandText_blank (text : String) :
    expandText blank text = .ok (String.ofList (['\n'].intercalate
      ((linesOf text.toList).map fun line => kept (pieces .plain 0 line)))) := by
  have htext := expandText_eq blank text
  rw [mapM_eq_map fun line _ => expandPieces?_blank (pieces .plain 0 line)] at htext
  cases hout : expandText blank text <;> simp_all [Except.toOption]

/-- Lines that are no shorter than others, one by one, are joined to a longer text unless they are
as long as those. -/
theorem length_intercalate {f g : List Char → List Char}
    (h : ∀ line, (g line).length ≤ (f line).length) (lines : List (List Char)) :
    (['\n'].intercalate (lines.map g)).length ≤ (['\n'].intercalate (lines.map f)).length ∧
      ((['\n'].intercalate (lines.map g)).length = (['\n'].intercalate (lines.map f)).length →
        ∀ line ∈ lines, (g line).length = (f line).length) := by
  induction lines with
  | nil => simp
  | cons line rest ih =>
    have hline := h line
    cases rest with
    | nil => simpa using hline
    | cons next rest =>
      simp only [List.map_cons, List.intercalate_cons_cons, List.length_append] at ih ⊢
      refine ⟨by omega, fun heq => List.forall_mem_cons.mpr ⟨by omega, ih.2 (by omega)⟩⟩

/-- References are replaced as they should be in every environment that has all of them, exactly
where none stands behind a `#` in a string. -/
theorem expandText_iff (text : String) :
    (∀ env out, interpolate? env text = some out → expandText env text = .ok out) ↔
      ∀ line ∈ linesOf text.toList, Unhidden (pieces .plain 0 line) := by
  constructor
  · -- empty variables show which references have been replaced, by the length of the text
    intro h
    have hsame := h blank _ (interpolate?_blank text)
    rw [expandText_blank, Except.ok.injEq, String.ofList_inj] at hsame
    have hlength := (length_intercalate (fun line => (length_kept (pieces .plain 0 line)).1)
      (linesOf text.toList)).2 (congrArg List.length hsame).symm
    exact fun line hline => (length_kept _).2 (hlength line hline)
  · intro h env out hout
    have heq : (linesOf text.toList).mapM (interpolateLine? env) =
        (linesOf text.toList).mapM fun line => expandPieces? env (pieces .plain 0 line) :=
      mapM_congr fun line hline => (expandPieces?_unhidden env (h line hline)).symm
    rw [interpolate?, heq, ← expandText_eq] at hout
    cases htext : expandText env text <;> simp_all [Except.toOption]

/-- What stands behind a `#` outside of strings is a comment, and stays. -/
theorem expandText_iff_commented :
    (∀ line ∈ linesOf "port = $\x7bPORT\x7d # $\x7bOLD\x7d".toList,
      Unhidden (pieces .plain 0 line)) ∧
      expandText (fun name => if name = "PORT" then some "80" else none)
        "port = $\x7bPORT\x7d # $\x7bOLD\x7d" = .ok "port = 80 # $\x7bOLD\x7d" := by
  have hshown : ∀ line ∈ linesOf "port = $\x7bPORT\x7d # $\x7bOLD\x7d".toList,
      Unhidden (pieces .plain 0 line) := by decide
  exact ⟨hshown, (expandText_iff _).mpr hshown _ _ (by decide)⟩

/-- Behind a `#` in a string a reference is not replaced, though it is in no comment. -/
theorem expandText_quoted :
    interpolate? (fun name => if name = "LEVEL" then some "debug" else none)
        "[observability.logging]\nfilter = \"a#$\x7bLEVEL\x7d\"" =
        some "[observability.logging]\nfilter = \"a#debug\"" ∧
      expandText (fun name => if name = "LEVEL" then some "debug" else none)
        "[observability.logging]\nfilter = \"a#$\x7bLEVEL\x7d\"" =
        .ok "[observability.logging]\nfilter = \"a#$\x7bLEVEL\x7d\"" := by
  decide

end Roster
