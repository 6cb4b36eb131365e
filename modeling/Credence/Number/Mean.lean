import Credence.Number.Double
/-!
# Means and deviations, rounded once

The sum of doubles is taken exactly, in units of the smallest double, and rounded
once; so is the variance, whose root is rounded once more. The results do not
depend on the order of the numbers.
-/

namespace Credence.Number

/-- A finite double in units of `2 ^ -1074`; other doubles count as zero. -/
def units (x : Float) : Int :=
  match classify x with
  | .finite d =>
    let n : Int := Int.ofNat (d.m * twos (d.q + 1074).toNat)
    if d.negative then -n else n
  | _ => 0

/-- The number of units in one. -/
def unitsPerOne : Nat := twos 1074

/-- The exact sum of doubles, rounded once. -/
def sum (xs : List Float) : Float :=
  (ofIntRatio? ((xs.map units).foldl (· + ·) 0) unitsPerOne).getD 0

/-- The sum divided by the count. -/
def mean (xs : List Float) : Float := sum xs / Float.ofNat xs.length

/-- The largest number whose square is at most `n`. -/
def floorSqrt (n : Nat) : Nat :=
  (List.range (n.log2 / 2 + 1)).reverse.foldl
    (fun r i => if (r + twos i) * (r + twos i) ≤ n then r + twos i else r) 0

/-- The root of a fraction, rounded once: 64 bits of the root and a last bit that tells whether
anything follows them. -/
def sqrtRatio (num den : Nat) : Float :=
  if num = 0 || den = 0 then 0
  else
    -- scale by `4 ^ s` so that the root has at least 64 bits
    let s := 64 + (den.log2 + 1) / 2
    let scaled := num * twos (2 * s)
    let root := floorSqrt (scaled / den)
    let exact := root * root * den = scaled
    (ofRatio false (if exact then 2 * root else 2 * root + 1) (twos (s + 1))).getD 0

/-- The deviation of a whole population of doubles. -/
def deviation (xs : List Float) : Float :=
  let n := xs.length
  let us := xs.map units
  let total := us.foldl (· + ·) 0
  -- the sum of squares of `n * x - total` is `n ^ 3` times the variance
  let distances := us.map fun u => (Int.ofNat n * u - total).natAbs
  sqrtRatio (distances.foldl (fun sum d => sum + d * d) 0)
    (n * n * n * (unitsPerOne * unitsPerOne))

example : floorSqrt 0 = 0 ∧ floorSqrt 15 = 3 ∧ floorSqrt 16 = 4 := by decide

end Credence.Number
