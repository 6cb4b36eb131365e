import Credence.Document.Schema
import Credence.Error
import Credence.Number.Mean
/-!
# Spans of time

A span is a whole number of microseconds, at most `999999999` days either way. A
window such as `90s` or `1.5h` names a span.
-/

namespace Credence

/-- A number of microseconds. -/
abbrev Span := Int

namespace Span

/-- The microseconds of a second. -/
def second : Int := 1000000

/-- The microseconds of a day. -/
def day : Int := 86400 * second

/-- Whether a span can be represented. -/
def isRepresentable (s : Span) : Bool :=
  let days := s.fdiv day
  days ≥ -999999999 && days ≤ 999999999

/-- The seconds of a span. -/
def seconds (s : Span) : Float := (Number.ofIntRatio? s 1000000).getD 0

/-- The integer nearest to a double, a half away from zero. -/
def roundAway (x : Float) : Int :=
  match Number.classify x with
  | .finite d =>
    let (n, k) := d.ratio
    let r := Int.ofNat ((2 * n + k) / (2 * k))
    if d.negative then -r else r
  | _ => 0

/-- The integer nearest to a double, a tie to the even one. -/
def roundEven (x : Float) : Int :=
  match Number.classify x with
  | .finite d =>
    let (n, k) := d.ratio
    let r := Int.ofNat (Number.roundDiv n k)
    if d.negative then -r else r
  | _ => 0

/-- The fraction part of a double, with its sign. -/
def fraction (x : Float) : Float := x - ((Number.truncate? x).bind Number.ofInt?).getD 0

/-- The span of a number of seconds: the fraction is rounded to microseconds on its own. -/
def ofSeconds (x : Float) : Span :=
  (Number.truncate? x).getD 0 * second + roundEven (fraction x * 1e6)

/-- The span of a number of seconds in any form, within what can be represented. -/
def ofScalar (x : Scalar) : Except Error Span :=
  let checked (s : Span) : Except Error Span := if isRepresentable s then .ok s else .error .overflow
  match x with
  | .whole n => checked (n * second)
  | .flag b => checked (if b then second else 0)
  | .real x =>
    if Number.isFinite x then checked (ofSeconds x)
    else if x == x then .error .overflow
    else .error .undefinedSpan

/-! ## Windows -/

/-- The span of a unit of a window. -/
def windowUnit : Char → Option Span
  | 's' => some second
  | 'm' => some (60 * second)
  | 'h' => some (3600 * second)
  | 'd' => some day
  | 'w' => some (7 * day)
  | _ => none

/-- The number and the unit of a window. -/
def readWindow (s : String) : Option (Float × Span) :=
  let cs := s.toList.dropWhile Text.isBlank
  let whole := cs.takeWhile Text.isDigit
  let rest := cs.dropWhile Text.isDigit
  let (part, rest) := match rest with
    | '.' :: more =>
      if (more.takeWhile Text.isDigit).isEmpty then ([], rest)
      else (more.takeWhile Text.isDigit, more.dropWhile Text.isDigit)
    | _ => ([], rest)
  if whole.isEmpty then none
  else match rest.dropWhile Text.isBlank with
    | u :: rest =>
      if rest.all Text.isBlank then
        let n : Number.Numeral :=
          ⟨false, Number.readAnyDigits (whole ++ part), -Int.ofNat part.length⟩
        (windowUnit u).map fun unit => (n.toDouble, unit)
      else none
    | [] => none

/-- The exact product of a double and a span, rounded to microseconds, a tie to the even one. -/
def scale (x : Float) (s : Span) : Option Span :=
  match Number.classify x with
  | .finite d =>
    let (n, k) := d.ratio
    let product := Number.roundDivInt (Int.ofNat n * s) k
    let product := if d.negative then -product else product
    if isRepresentable product then some product else none
  | _ => none

/-- The span of a window. -/
def ofWindow (s : String) : Except Error Span :=
  match readWindow s with
  | none => .error (.window s)
  | some (x, unit) =>
    match scale x unit with
    | some span => .ok span
    | none => .error .overflow

end Span

end Credence
