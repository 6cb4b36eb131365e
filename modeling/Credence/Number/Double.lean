import Credence.Number.Power
/-!
# Doubles as exact fractions

A finite double is a sign and a value `m * 2 ^ q`. `Double.ofRatio` goes the other
way: it rounds a fraction to the nearest double, a tie to the even one, which is
the rule of the standard for every basic operation. Sums, means and roots that
have to be right to the last bit are computed on fractions and rounded once.
-/

namespace Credence.Number

/-- A finite double: `m * 2 ^ q`, negated or not. -/
structure Dyadic where
  negative : Bool
  m : Nat
  q : Int
deriving Repr, DecidableEq

/-- What the bits of a double stand for. -/
inductive DoubleClass where
  | finite (d : Dyadic)
  | infinite (negative : Bool)
  | nan
deriving Repr, DecidableEq

/-- Takes the bits of a double apart. -/
def classOfBits (bits : Nat) : DoubleClass :=
  let negative := bits / twos 63 % 2 = 1
  let exponent := bits / twos 52 % twos 11
  let fraction := bits % twos 52
  if exponent = 2047 then
    if fraction = 0 then .infinite negative else .nan
  else if exponent = 0 then .finite ⟨negative, fraction, -1074⟩
  else .finite ⟨negative, twos 52 + fraction, Int.ofNat exponent - 1075⟩

/-- What a double stands for. -/
def classify (x : Float) : DoubleClass := classOfBits x.toBits.toNat

/-- Whether a double is a number. -/
def isFinite (x : Float) : Bool :=
  match classify x with
  | .finite _ => true
  | _ => false

/-- The numerator and denominator of `m * 2 ^ q`, without its sign. -/
def Dyadic.ratio (d : Dyadic) : Nat × Nat :=
  if d.q ≥ 0 then (d.m * twos d.q.toNat, 1) else (d.m, twos (-d.q).toNat)

/-- The quotient `num / den` rounded to a natural number, a tie to the even one. -/
def roundDiv (num den : Nat) : Nat :=
  let q := num / den
  let r := num % den
  if 2 * r < den then q
  else if 2 * r > den then q + 1
  else if q % 2 = 0 then q else q + 1

/-- The quotient `num / den` of an integer by a natural number, rounded in the same way. -/
def roundDivInt (num : Int) (den : Nat) : Int :=
  if num ≥ 0 then Int.ofNat (roundDiv num.natAbs den) else -Int.ofNat (roundDiv num.natAbs den)

/-- The bits of the double nearest to `num / den`, of a positive fraction; the
exponent with all bits set stands for an overflow. -/
def bitsOfRatio (num den : Nat) : Nat :=
  if num = 0 || den = 0 then 0
  else
    -- `2 ^ (e - 1) < num / den < 2 ^ (e + 1)`
    let e : Int := Int.ofNat num.log2 - Int.ofNat den.log2
    let ulp (q : Int) : Nat :=
      if q ≥ 0 then roundDiv num (den * twos q.toNat) else roundDiv (num * twos (-q).toNat) den
    let below : Bool :=
      if e ≥ 0 then num < den * twos e.toNat else num * twos (-e).toNat < den
    let top : Int := if below then e - 1 else e
    let q : Int := max (top - 52) (-1074)
    let m := ulp q
    -- adding the fraction with its leading bit moves the exponent by one
    if q = -1074 then m
    else
      let biased := (q + 1074).toNat
      if biased > 2046 then 2047 * twos 52
      else min (biased * twos 52 + m) (2047 * twos 52)

/-- The double nearest to a fraction, or `none` beyond the largest double. -/
def ofRatio (negative : Bool) (num den : Nat) : Option Float :=
  let bits := bitsOfRatio num den
  if bits ≥ 2047 * twos 52 then none
  else
    let x := Float.ofBits bits.toUInt64
    some (if negative then -x else x)

/-- The double nearest to an integer, or `none` beyond the largest double. -/
def ofInt? (n : Int) : Option Float := ofRatio (n < 0) n.natAbs 1

/-- The double nearest to `num / den`. -/
def ofIntRatio? (num : Int) (den : Nat) : Option Float := ofRatio (num < 0) num.natAbs den

/-- The exact value of a finite double, as numerator and denominator. -/
def ratio? (x : Float) : Option (Int × Nat) :=
  match classify x with
  | .finite d =>
    let (n, k) := d.ratio
    some (if d.negative then -Int.ofNat n else Int.ofNat n, k)
  | _ => none

/-- The integer part of a finite double, toward zero. -/
def truncate? (x : Float) : Option Int :=
  match classify x with
  | .finite d =>
    let (n, k) := d.ratio
    some (if d.negative then -Int.ofNat (n / k) else Int.ofNat (n / k))
  | _ => none

/-- The integer that a double equals, if it equals one. -/
def toInt? (x : Float) : Option Int :=
  match classify x with
  | .finite d =>
    let (n, k) := d.ratio
    if n % k = 0 then some (if d.negative then -Int.ofNat (n / k) else Int.ofNat (n / k)) else none
  | _ => none

example : roundDiv 5 2 = 2 ∧ roundDiv 7 2 = 4 ∧ roundDiv 8 3 = 3 := by decide

end Credence.Number
