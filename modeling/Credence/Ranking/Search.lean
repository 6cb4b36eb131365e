/-!
# Searching for a place

Where does an item belong among others, if the ones in front of its place are those
that pass a test? With all items comparable any search finds the same place. Where
some are not, the places that are looked at decide, so they are part of the meaning:
halving looks at the middle, and strides look at ever greater distances from a hint
before they halve.
-/

namespace Credence.Ranking

variable {α : Type}

/-- The place between `low` and `high`, found by halving. -/
def halve (test : α → Bool) (xs : List α) (low high : Nat) : Nat :=
  if low < high then
    let middle := low + (high - low) / 2
    match xs[middle]? with
    | some x => if test x then halve test xs (middle + 1) high else halve test xs low middle
    | none => low
  else low
termination_by high - low

/-- Doubles a distance as long as it lies below a limit and passes a test: the last distance that
did, and the first that did not. -/
def stride (test : Nat → Bool) (limit last distance : Nat) : Nat × Nat :=
  if distance < limit && test distance then stride test limit distance (2 * distance + 1)
  else (last, min distance limit)
termination_by limit - distance
decreasing_by simp_all; omega

/-- The place found by strides from the item at `hint`, and then by halving. -/
def gallop (test : α → Bool) (xs : List α) (hint : Nat) : Nat :=
  let passes (i : Nat) : Bool := (xs[i]?).any test
  if passes hint then
    let (last, next) := stride (fun d => passes (hint + d)) (xs.length - hint) 0 1
    halve test xs (hint + last + 1) (hint + next)
  else
    let (last, next) := stride (fun d => !passes (hint - d)) (hint + 1) 0 1
    halve test xs (hint + 1 - next) (hint - last)

example : gallop (fun n : Nat => n < 5) [1, 2, 3, 5, 8] 0 = 3 := by decide +kernel

example : gallop (fun n : Nat => n < 5) [1, 2, 3, 5, 8] 4 = 3 := by decide +kernel

end Credence.Ranking
