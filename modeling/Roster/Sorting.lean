/-!
Stable sorting by whether one item must stand before another. Where that is no order, as when some
items are equal to all others, the outcome depends on the method. So the method is fixed: up to 20
items are placed one by one, and up to 64 are sorted in two parts that are then merged.
-/

namespace Roster

namespace Sorting

variable {α : Type}

/-- Places an item among others, the last of them first: it passes those that it must precede. -/
def place (before : α → α → Bool) (v : α) : List α → List α
  | [] => [v]
  | w :: rest => if before v w then w :: place before v rest else v :: w :: rest

/-- Places items behind others, which are in order already. -/
def placeAll (before : α → α → Bool) (others items : List α) : List α :=
  (items.foldl (fun placed v => place before v placed) others.reverse).reverse

/-- Items in order, placed one by one; equal ones keep their places. -/
def placed (before : α → α → Bool) (items : List α) : List α :=
  placeAll before [] items

/-- Merges two lists from the front. -/
def mergeFront (before : α → α → Bool) : List α → List α → List α
  | [], ws => ws
  | vs, [] => vs
  | v :: vs, w :: ws =>
    if before w v then w :: mergeFront before (v :: vs) ws
    else v :: mergeFront before vs (w :: ws)

/-- Merges two lists from the back: all three lists are reversed. -/
def mergeBack (before : α → α → Bool) : List α → List α → List α
  | [], ws => ws
  | vs, [] => vs
  | v :: vs, w :: ws =>
    if before w v then v :: mergeBack before vs (w :: ws)
    else w :: mergeBack before (v :: vs) ws

/-- Merges two lists from the end where the shorter one begins or ends. -/
def merge (before : α → α → Bool) (vs ws : List α) : List α :=
  if vs.length ≤ ws.length then mergeFront before vs ws
  else (mergeBack before vs.reverse ws.reverse).reverse

/-- Merges two halves from both ends at once, the item in the middle last. The ends meet only if
they agree on which items come from which half. -/
def mergeEnds? (before : α → α → Bool) (vs ws : List α) : Option (List α) :=
  let beforeMarked (a b : Bool × α) := before a.2 b.2
  let left := vs.map fun v => (true, v)
  let right := ws.map fun w => (false, w)
  let steps := vs.length
  let front := (mergeFront beforeMarked left right).take steps
  let back := ((mergeBack beforeMarked left.reverse right.reverse).take steps).reverse
  let fromLeft := (front ++ back).countP (·.1)
  let middle :=
    if ws.length = steps then []
    else if fromLeft < steps then (left.drop (front.countP (·.1))).take 1
    else (right.drop (front.countP fun m => !m.1)).take 1
  let met := front ++ middle ++ back
  if met.countP (·.1) = steps then some (met.map Prod.snd) else none

/-- Four items in order, by five comparisons. -/
def sortFour (before : α → α → Bool) (a b c d : α) : List α :=
  let (a, b) := if before b a then (b, a) else (a, b)
  let (c, d) := if before d c then (d, c) else (c, d)
  let low := before c a
  let high := before d b
  let least := if low then c else a
  let greatest := if high then b else d
  let left := if low then a else if high then c else b
  let right := if high then d else if low then b else c
  if before right left then [least, right, left, greatest] else [least, left, right, greatest]

/-- One half of a block: four items at once if there are enough, the others placed. -/
def sortHalf (before : α → α → Bool) (four : Bool) (items : List α) : List α :=
  match four, items with
  | true, a :: b :: c :: d :: rest => placeAll before (sortFour before a b c d) rest
  | _, items => placed before items

/-- A block in order: its halves are sorted and merged from both ends. -/
def sortBlock? (before : α → α → Bool) (items : List α) : Option (List α) :=
  if items.length < 2 then some items
  else
    let half := items.length / 2
    let four := decide (8 ≤ items.length)
    mergeEnds? before (sortHalf before four (items.take half))
      (sortHalf before four (items.drop half))

/-- How many items at the front rise, or fall if `falls`. -/
def runLength (before : α → α → Bool) (falls : Bool) : List α → Nat
  | [] => 0
  | [_] => 1
  | v :: w :: rest => if before w v == falls then 1 + runLength before falls (w :: rest) else 1

/-- The most items of a block. -/
def blockSize : Nat := 32

/-- Sorts some items at the front, and gives the others: a run of at least `least` items as it is
or reversed, or else a block. -/
def firstPart? (before : α → α → Bool) (least : Nat) (items : List α) :
    Option (List α × List α) :=
  let falls := (items.tail.zip items).head?.any fun m => before m.1 m.2
  let run := runLength before falls items
  if least ≤ run then
    let front := items.take run
    some (if falls then front.reverse else front, items.drop run)
  else (sortBlock? before (items.take blockSize)).map fun front => (front, items.drop blockSize)

/-- Items sorted in two parts, the first of which has at least half of them if it is a run. -/
def sortParts? (before : α → α → Bool) (items : List α) : Option (List α) := do
  let least := items.length - items.length / 2
  let (first, rest) ← firstPart? before least items
  if rest.isEmpty then some first
  else do
    let (second, _) ← firstPart? before least rest
    some (merge before first second)

/-- Items in order by the method for their number. -/
def arranged (before : α → α → Bool) (items : List α) : List α :=
  if 20 < items.length ∧ items.length ≤ 2 * blockSize then
    (sortParts? before items).getD (placed before items)
  else placed before items

end Sorting

end Roster
