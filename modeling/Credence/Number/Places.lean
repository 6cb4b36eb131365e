import Credence.Number.Double
/-!
# Numbers with fixed places

A number with a fixed count of decimal places, rounded from its exact value, a tie
to the even digit.
-/

namespace Credence.Number

/-- The text of a natural number of units of `10 ^ -places`. -/
def placed (places units : Nat) : List Char :=
  let ds := Nat.toDigits 10 units
  let ds := List.replicate (places + 1 - ds.length) '0' ++ ds
  ds.take (ds.length - places) ++ '.' :: ds.drop (ds.length - places)

/-- A double with the given number of places. -/
def fixed (places : Nat) (x : Float) : String :=
  match classify x with
  | .nan => "nan"
  | .infinite true => "-inf"
  | .infinite false => "inf"
  | .finite d =>
    let (n, k) := d.ratio
    let body := placed places (roundDiv (n * tens places) k)
    String.ofList (if d.negative then '-' :: body else body)

example : placed 3 296 = ['0', '.', '2', '9', '6'] ∧ placed 3 1000 = ['1', '.', '0', '0', '0'] := by
  decide

end Credence.Number
