import Credence.Ranking.Search
/-!
# Runs

A list is a sequence of runs, stretches that already are in order: either none of the
items goes before the one in front of it, or each of them does and the run is turned
around. Short runs are extended by insertion.
-/

namespace Credence.Ranking

variable {α : Type}

/-- The items, from `x` on, each of which relates to the one in front of it, and the rest. -/
def chain (relates : α → α → Bool) (x : α) : List α → List α × List α
  | [] => ([x], [])
  | y :: rest =>
    if relates y x then
      let (run, rest) := chain relates y rest
      (x :: run, rest)
    else ([x], y :: rest)

/-- The run at the start of a list, in order, and the rest. -/
def leadingRun (before : α → α → Bool) : List α → List α × List α
  | x :: y :: rest =>
    if before y x then
      let (run, rest) := chain before x (y :: rest)
      (run.reverse, rest)
    else chain (fun b a => !before b a) x (y :: rest)
  | xs => (xs, [])

/-- Inserts an item into a run by halving, behind the items it does not go before. -/
def insert (before : α → α → Bool) (xs : List α) (x : α) : List α :=
  let n := halve (fun y => !before x y) xs 0 xs.length
  xs.take n ++ x :: xs.drop n

/-- The least length of the runs of a list of `n` items: all of a short list, else its leading six
bits, rounded up. -/
def leastRun (n : Nat) : Nat := if n < 64 then n else go n n 0
where
  /-- Halves a length until it is short, and notes whether a bit was lost. -/
  go : Nat → Nat → Nat → Nat
    | 0, n, lost => n + lost
    | fuel + 1, n, lost => if n < 64 then n + lost else go fuel (n / 2) (max lost (n % 2))

/-- The run at the start of a list, extended to a least length, and the rest. -/
def nextRun (before : α → α → Bool) (least : Nat) (xs : List α) : List α × List α :=
  let (run, rest) := leadingRun before xs
  let missing := least - run.length
  ((rest.take missing).foldl (insert before) run, rest.drop missing)

end Credence.Ranking
