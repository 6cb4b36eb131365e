import Credence.Number.Double
/-!
# The shortest decimal of a double

A double is printed with the fewest digits that read back as the same double, and
of those the nearest one. The digits come from exact arithmetic: for one, two, …
digits the value's two neighbours on that decimal grid are tested against the
interval of reals that round to the double.

`Layout` decides how the digits are laid out. The library prints positionally for
decimal exponents from -4 to 15, keeps `.0` on integral values, and writes a
signed exponent of at least two digits otherwise.
-/

namespace Credence.Number

/-- A decimal `0.d₁d₂… * 10 ^ exponent`, with the digits read as one number. -/
structure Decimal where
  digits : Nat
  exponent : Int
deriving Repr, DecidableEq

/-- The number of decimal digits of a natural number. -/
def digitCount (n : Nat) : Nat := (Nat.toDigits 10 n).length

/-- The `k` with `10 ^ (k - 1) ≤ num / den < 10 ^ k`. -/
def magnitude (num den : Nat) : Int :=
  if num ≥ den then Int.ofNat (digitCount (num / den))
  else
    let t := digitCount (den / num)
    if num * tens (t - 1) ≥ den then 2 - Int.ofNat t else 1 - Int.ofNat t

/-- The reals that round to a double, with bounds `(num ± gap) / den`. -/
structure Rounding where
  num : Nat
  above : Nat
  below : Nat
  den : Nat
  closed : Bool

/-- The interval of a positive double `m * 2 ^ q`; the gap below a power of two is half as wide. -/
def Dyadic.rounding (d : Dyadic) : Rounding :=
  let (n, k) := Dyadic.ratio ⟨false, 4 * d.m, d.q - 2⟩
  let unit := n / (4 * d.m)
  let narrow := d.m = twos 52 && d.q > -1074
  if narrow then ⟨n, 2 * unit, unit, k, d.m % 2 = 0⟩ else ⟨n, 2 * unit, 2 * unit, k, d.m % 2 = 0⟩

/-- Whether `a / b` rounds to the double. -/
def Rounding.holds (r : Rounding) (a b : Nat) : Bool :=
  let low := (r.num - r.below) * b
  let high := (r.num + r.above) * b
  let x := a * r.den
  if r.closed then low ≤ x && x ≤ high else low < x && x < high

/-- The best decimal with `n` digits, if one rounds to the double. -/
def Rounding.decimal? (r : Rounding) (k : Int) (n : Nat) : Option Decimal :=
  -- the grid `c * 10 ^ s`
  let s := k - Int.ofNat n
  let up := if s ≥ 0 then tens s.toNat else 1
  let down := if s ≥ 0 then 1 else tens (-s).toNat
  let c := r.num * down / (r.den * up)
  let excess := r.num * down % (r.den * up)
  let low := r.holds (c * up) down
  let high := r.holds ((c + 1) * up) down
  let lower : Option Decimal := some ⟨c, k⟩
  let upper : Option Decimal :=
    if c + 1 = tens n then some ⟨tens (n - 1), k + 1⟩ else some ⟨c + 1, k⟩
  if low && high then
    let twice := 2 * excess
    let step := r.den * up
    if twice < step || (twice = step && c % 2 = 0) then lower else upper
  else if low then lower
  else if high then upper
  else none

/-- The first decimal found with `n`, `n + 1`, … digits. -/
def Rounding.search (r : Rounding) (k : Int) : Nat → Nat → Decimal
  | 0, n => ⟨r.num, Int.ofNat n⟩
  | more + 1, n => (r.decimal? k n).getD (r.search k more (n + 1))

/-- The shortest decimal of a positive double. -/
def Dyadic.shortest (d : Dyadic) : Decimal :=
  let r := d.rounding
  r.search (magnitude r.num r.den) 17 1

/-- How a decimal is laid out: the exponents that print positionally, and the least width of
the others. -/
structure Layout where
  lowest : Int
  highest : Int
  exponentWidth : Nat

/-- The layout of numbers in answers and messages. -/
def layout : Layout := ⟨-4, 15, 2⟩

/-- Digits of a number without trailing zeros. -/
def significant (n : Nat) : List Char :=
  let ds := (Nat.toDigits 10 n).reverse.dropWhile (· = '0')
  if ds.isEmpty then ['0'] else ds.reverse

/-- Lays out a decimal. -/
def Layout.render (l : Layout) (d : Decimal) : List Char :=
  let ds := significant d.digits
  let e := d.exponent - 1
  if l.lowest ≤ e && e ≤ l.highest then
    if d.exponent ≤ 0 then
      '0' :: '.' :: List.replicate (-d.exponent).toNat '0' ++ ds
    else
      let whole := d.exponent.toNat
      if ds.length ≤ whole then ds ++ List.replicate (whole - ds.length) '0' ++ ['.', '0']
      else ds.take whole ++ '.' :: ds.drop whole
  else
    let mantissa := match ds with
      | [] => []
      | [c] => [c]
      | c :: rest => c :: '.' :: rest
    let sign := if e < 0 then '-' else '+'
    let digits := Nat.toDigits 10 e.natAbs
    mantissa ++ 'e' :: sign :: List.replicate (l.exponentWidth - digits.length) '0' ++ digits

/-- The text of a double. -/
def text (x : Float) : String :=
  match classify x with
  | .nan => "nan"
  | .infinite true => "-inf"
  | .infinite false => "inf"
  | .finite d =>
    let body := if d.m = 0 then ['0', '.', '0'] else layout.render d.shortest
    String.ofList (if d.negative then '-' :: body else body)

end Credence.Number
