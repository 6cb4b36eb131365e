import Credence.Ranking.Run
/-!
# Merging two runs

Two neighbouring runs are merged from the front if the first one is not longer, and
from the back if it is. Items are taken one by one until one run has given several in
a row; then whole stretches are taken, each found by strides, until the stretches get
short. The number in a row that this takes is kept from merge to merge.
-/

namespace Credence.Ranking

variable {α : Type}

/-- A merge under way: what is left of the two runs, what is merged, and how many items in a row lead
to stretches. -/
structure Merge (α : Type) where
  a : List α
  b : List α
  merged : List α
  patience : Nat

/-- Merged items, and how many items in a row lead to stretches in the next merge. -/
abbrev Merged (α : Type) := List α × Nat

namespace Merge

/-- The item at the end of a run where it is merged. -/
def front (back : Bool) (xs : List α) : Option α := if back then xs.getLast? else xs.head?

/-- Adds items to what is merged. -/
def join (back : Bool) (merged xs : List α) : List α := if back then xs ++ merged else merged ++ xs

/-- Takes items from the end of the first run. -/
def takeA (back : Bool) (n : Nat) (m : Merge α) : Merge α :=
  let k := m.a.length - n
  if back then { m with a := m.a.take k, merged := m.a.drop k ++ m.merged }
  else { m with a := m.a.drop n, merged := m.merged ++ m.a.take n }

/-- Takes items from the end of the second run. -/
def takeB (back : Bool) (n : Nat) (m : Merge α) : Merge α :=
  let k := m.b.length - n
  if back then { m with b := m.b.take k, merged := m.b.drop k ++ m.merged }
  else { m with b := m.b.drop n, merged := m.merged ++ m.b.take n }

/-- What is left in order, once a run is used up, or the shorter one but for its last item: that one
goes behind all others from the front, and before them from the back. -/
def remainder? (back : Bool) (m : Merge α) : Option (List α) :=
  if back then
    match m.a, m.b with
    | [], b => some b
    | a, [] => some a
    | a, [y] => some (y :: a)
    | _, _ => none
  else
    match m.a, m.b with
    | a, [] => some a
    | [], b => some b
    | [x], b => some (b ++ [x])
    | _, _ => none

/-- Ends a merge of which only a remainder is left. -/
def check (back : Bool) (m : Merge α) : Except (Merged α) (Merge α) :=
  match m.remainder? back with
  | some rest => .error (join back m.merged rest, m.patience)
  | none => .ok m

/-- How many items of a run go before a place, or behind it from the back. -/
def stretch (back : Bool) (test : α → Bool) (xs : List α) : Nat :=
  if back then xs.length - gallop test xs (xs.length - 1) else gallop test xs 0

/-- Takes a stretch of the first run, an item of the second, a stretch of the second and an item of
the first; gives the lengths of the stretches too. -/
def round (before : α → α → Bool) (back : Bool) (m : Merge α) :
    Except (Merged α) (Merge α × Nat × Nat) := do
  let m := { m with patience := if m.patience > 1 then m.patience - 1 else m.patience }
  let i := stretch back (fun x => (front back m.b).any fun y => !before y x) m.a
  let m ← (m.takeA back i).check back
  let m ← (m.takeB back 1).check back
  let j := stretch back (fun y => (front back m.a).any fun x => before y x) m.b
  let m ← (m.takeB back j).check back
  let m ← (m.takeA back 1).check back
  return (m, i, j)

/-- Whether the next item comes from the second run. -/
def takesB (before : α → α → Bool) (back : Bool) (m : Merge α) : Bool :=
  match front back m.a, front back m.b with
  | some x, some y => before y x != back
  | _, _ => false

/-- How a merge goes on: item by item, with the numbers of items that the first and the second run
have given in a row, or by stretches. -/
inductive Mode where
  | items (fromA fromB : Nat)
  | stretches

/-- The length from which on a stretch is long. -/
def longStretch : Nat := 7

/-- One step of a merge. -/
def step (before : α → α → Bool) (back : Bool) (m : Merge α) :
    Mode → Except (Merged α) (Merge α × Mode)
  | .items fromA fromB => do
    let second := m.takesB before back
    let m ← (if second then m.takeB back 1 else m.takeA back 1).check back
    let (fromA, fromB) := if second then (0, fromB + 1) else (fromA + 1, 0)
    if max fromA fromB ≥ m.patience then
      return ({ m with patience := m.patience + 1 }, .stretches)
    else return (m, .items fromA fromB)
  | .stretches => do
    let (m, i, j) ← m.round before back
    if max i j ≥ longStretch then return (m, .stretches)
    else return ({ m with patience := m.patience + 1 }, .items 0 0)

/-- Goes on with a merge. Each step takes an item, so their number bounds the steps. -/
def run (before : α → α → Bool) (back : Bool) : Nat → Merge α → Mode → Merged α
  | 0, m, _ => (join back m.merged (m.a ++ m.b), m.patience)
  | steps + 1, m, mode =>
    match m.step before back mode with
    | .error done => done
    | .ok (m, mode) => run before back steps m mode

end Merge

/-- Merges two runs. Items of the first that belong in front of all of the second stay, and so do
items of the second that belong behind all of the first. -/
def merge (before : α → α → Bool) (a b : List α) (patience : Nat) : Merged α :=
  let low := gallop (fun x => b.head?.any fun y => !before y x) a 0
  let high := gallop (fun y => a.getLast?.any fun x => before y x) b (b.length - 1)
  if low ≥ a.length || high = 0 then (a ++ b, patience)
  else
    let m : Merge α := ⟨a.drop low, b.take high, [], patience⟩
    let back := m.a.length > m.b.length
    let first := (if back then m.takeA back 1 else m.takeB back 1).check back
    let (merged, patience) := match first with
      | .error done => done
      | .ok m => m.run before back (a.length + b.length) (.items 0 0)
    (a.take low ++ merged ++ b.drop high, patience)

end Credence.Ranking
