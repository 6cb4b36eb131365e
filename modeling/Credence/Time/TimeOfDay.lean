import Credence.Number.Numeral
import Credence.Time.Span
/-!
# Times of day

A time of day is hours and minutes of two digits with a colon between them, and
perhaps seconds, whose fraction follows a point or a comma. Each reader takes its
part from the front of a text and leaves the rest.
-/

namespace Credence.TimeOfDay

/-- A number of exactly `width` digits, and the rest. -/
def takeNumber (width : Nat) (cs : List Char) : Option (Int × List Char) :=
  let ds := cs.take width
  if ds.length = width && ds.all Number.plainDigit then
    some (Int.ofNat (Number.readDigits ds), cs.drop width)
  else none

/-- One given character, and the rest. -/
def takeChar (p : Char → Bool) : List Char → Option (List Char)
  | c :: rest => if p c then some rest else none
  | [] => none

/-- A number of two digits below sixty, and the rest. -/
def takeSixtieth (cs : List Char) : Option (Int × List Char) := do
  let (n, cs) ← takeNumber 2 cs
  if n > 59 then none else some (n, cs)

/-- Seconds with their fraction, in microseconds, and the rest. -/
def readSeconds (cs : List Char) : Option (Int × List Char) :=
  match cs with
  | ':' :: cs => do
    let (s, cs) ← takeSixtieth cs
    match takeChar (fun c => c = '.' || c = ',') cs with
    | some more =>
      let part := more.takeWhile Number.plainDigit
      if part.isEmpty then none
      let micros := Number.readDigits ((part ++ List.replicate 6 '0').take 6)
      return (s * Span.second + Int.ofNat micros, more.dropWhile Number.plainDigit)
    | none => return (s * Span.second, cs)
  | _ => some (0, cs)

/-- Minutes and seconds, in microseconds, and the rest. -/
def readMinutes (cs : List Char) : Option (Int × List Char) := do
  let (m, cs) ← takeSixtieth cs
  let (s, cs) ← readSeconds cs
  return (m * 60 * Span.second + s, cs)

/-- A time of day, in microseconds, and the rest. -/
def readTime (cs : List Char) : Option (Int × List Char) := do
  let (h, cs) ← takeNumber 2 cs
  let cs ← takeChar (· = ':') cs
  let (m, cs) ← readMinutes cs
  if h ≤ 23 then some (h * 3600 * Span.second + m, cs) else none

end Credence.TimeOfDay
