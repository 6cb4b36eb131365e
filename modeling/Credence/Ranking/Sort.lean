import Credence.Ranking.Merge
/-!
# Ranking without a total order

Items some of which cannot be compared are put into one definite order: the runs of a
list are merged, neighbours with neighbours, in an order that their places and lengths
decide. Where all items are comparable this is the stable order.
-/

namespace Credence.Ranking

variable {α : Type}

/-- A run that waits to be merged, with the power of its border to the next one. -/
structure Pending (α : Type) where
  items : List α
  power : Nat

/-- The first binary place in which two fractions `a / n` and `b / n` differ. -/
def firstDifference (n : Nat) : Nat → Nat → Nat → Nat
  | 0, _, _ => 0
  | fuel + 1, a, b =>
    if a ≥ n then firstDifference n fuel (2 * (a - n)) (2 * (b - n)) + 1
    else if b ≥ n then 1
    else firstDifference n fuel (2 * a) (2 * b) + 1

/-- The power of the border between two neighbouring runs of a list of `n` items, the first of which
starts at `start`: the place in which the middles of the two differ. -/
def borderPower (start first second n : Nat) : Nat :=
  let a := 2 * start + first
  firstDifference n (n + 1) a (a + first + second)

/-- Merges the last runs, the latest in front, as long as their border has more than a power. -/
def mergeAbove (before : α → α → Bool) (power : Nat) (runs : List (Pending α)) (patience : Nat) :
    List (Pending α) × Nat :=
  match runs with
  | y :: x :: rest =>
    if x.power > power then
      let (items, patience) := merge before x.items y.items patience
      mergeAbove before power (⟨items, x.power⟩ :: rest) patience
    else (runs, patience)
  | _ => (runs, patience)
termination_by runs.length

/-- Makes way for a run of a length: merges what lies above the power of its border. -/
def settle (before : α → α → Bool) (n length : Nat) (runs : List (Pending α)) (patience : Nat) :
    List (Pending α) × Nat :=
  match runs with
  | [] => ([], patience)
  | x :: rest =>
    let start := rest.foldl (fun n r => n + r.items.length) 0
    let power := borderPower start x.items.length length n
    match mergeAbove before power (x :: rest) patience with
    | (x :: rest, patience) => ({ x with power := power } :: rest, patience)
    | ([], patience) => ([], patience)

/-- Splits a list of `n` items in all into runs and merges them as far as their powers tell. -/
def collect (before : α → α → Bool) (n : Nat) :
    Nat → List α → List (Pending α) → Nat → List (Pending α) × Nat
  | 0, _, runs, patience => (runs, patience)
  | _ + 1, [], runs, patience => (runs, patience)
  | fuel + 1, xs, runs, patience =>
    let (run, rest) := nextRun before (leastRun n) xs
    let (runs, patience) := settle before n run.length runs patience
    collect before n fuel rest (⟨run, 0⟩ :: runs) patience

/-- Merges all runs that are left, the latest in front. -/
def collapse (before : α → α → Bool) (runs : List (Pending α)) (patience : Nat) : List α :=
  match runs with
  | [] => []
  | [x] => x.items
  | [y, x] => (merge before x.items y.items patience).1
  | z :: y :: x :: rest =>
    if x.items.length < z.items.length then
      let (items, patience) := merge before x.items y.items patience
      collapse before (z :: ⟨items, x.power⟩ :: rest) patience
    else
      let (items, patience) := merge before y.items z.items patience
      collapse before (⟨items, y.power⟩ :: x :: rest) patience
termination_by runs.length

/-- Orders items by a relation that tells which go before which. -/
def sort (before : α → α → Bool) (xs : List α) : List α :=
  let (runs, patience) := collect before xs.length xs.length xs [] Merge.longStretch
  collapse before runs patience

example : sort (fun m n : Nat => decide (m < n)) [2, 3, 1, 2, 0] = [0, 1, 2, 2, 3] := by
  decide +kernel

end Credence.Ranking
