import Credence.Ranking.Sort
import Credence.Time.TimeOfDay
/-!
# Instants

An instant is a local time and the zone it is read in. Most zones keep a fixed distance
from universal time, and what is read from documents is always in one of them. The
clocks of a place may be set forth and back, so that they skip some times and show
others twice.

Instants of one zone are compared by what its clocks show, all others by universal
time, but none in a skipped or repeated hour is the same as one of another zone. So
instants at fixed distances, or all of one place, are in a total order; instants of
several places need not be. Instants are moved by spans within the years 1 to 9999, and
printed with the distance of their zone.
-/

namespace Credence

/-- What relates local times to universal time, in microseconds: a fixed distance, or the clocks of
a place, with the distance of every time that they show. `second` tells the later of two times that
they show alike, whose distance is asked for with `true`. -/
inductive Zone where
  | fixed (offset : Int)
  | place (id : Nat) (offset : Int → Bool → Int) (second : Bool)
deriving Inhabited

namespace Zone

/-- Universal time keeps no distance from itself. -/
instance : Zero Zone := ⟨.fixed 0⟩

instance : Repr Zone where
  reprPrec
    | .fixed offset, _ => repr offset
    | .place id _ second, _ => repr (id, second)

/-- Whether a zone keeps its distance. -/
def isFixed : Zone → Bool
  | .fixed _ => true
  | .place .. => false

/-- Whether two zones have the same clocks. Places are told apart by their numbers. -/
def isSame : Zone → Zone → Bool
  | .fixed offset, .fixed offset' => offset == offset'
  | .place id .., .place id' .. => id == id'
  | _, _ => false

/-- The distance of a local time. -/
def distance : Zone → Int → Int
  | .fixed offset, _ => offset
  | .place _ offset second, t => offset t second

/-- Whether the distance of a local time depends on which of two times is meant, as it does where
clocks are set forth or back. -/
def isUnsure : Zone → Int → Bool
  | .fixed _, _ => false
  | .place _ offset _, t => offset t false != offset t true

/-- The same zone, for the first of two times that its clocks show alike. -/
def first : Zone → Zone
  | .fixed offset => .fixed offset
  | .place id offset _ => .place id offset false

end Zone

/-- A local time, in microseconds from the start of 1970, and its zone. -/
structure Instant where
  localTime : Int
  zone : Zone
deriving Repr, Inhabited

namespace Instant

/-! ## The calendar -/

/-- The number of days from the first of March of year zero to a date, as months are counted from
March. -/
def marchDays (year month day : Int) : Int :=
  let y := if month ≤ 2 then year - 1 else year
  let m := if month ≤ 2 then month + 9 else month - 3
  365 * y + y.fdiv 4 - y.fdiv 100 + y.fdiv 400 + (153 * m + 2).fdiv 5 + day - 1

/-- The number of days from the start of 1970 to a date. -/
def daysOfDate (year month day : Int) : Int := marchDays year month day - 719468

/-- The date that lies a number of days after the start of 1970. -/
def dateOfDays (days : Int) : Int × Int × Int :=
  let z := days + 719468
  let era := z.fdiv 146097
  let doe := z - era * 146097
  let yoe := (doe - doe / 1460 + doe / 36524 - doe / 146096) / 365
  let doy := doe - (365 * yoe + yoe / 4 - yoe / 100)
  let mp := (5 * doy + 2) / 153
  let d := doy - (153 * mp + 2) / 5 + 1
  let m := if mp < 10 then mp + 3 else mp - 9
  let y := yoe + era * 400
  (if m ≤ 2 then y + 1 else y, m, d)

/-- Whether a year has a leap day. -/
def isLeap (year : Int) : Bool := year % 4 == 0 && (year % 100 != 0 || year % 400 == 0)

/-- The number of days of a month. -/
def daysInMonth (year month : Int) : Int :=
  if month = 2 then if isLeap year then 29 else 28
  else if month = 4 || month = 6 || month = 9 || month = 11 then 30 else 31

/-! ## Comparing and moving -/

/-- The distance of an instant from universal time. -/
def offset (i : Instant) : Int := i.zone.distance i.localTime

/-- The microseconds from the start of 1970 in universal time. -/
def universal (i : Instant) : Int := i.localTime - i.offset

/-- The span from one instant to another: what the clocks show, if they are the same. -/
def since (i j : Instant) : Span :=
  if i.zone.isSame j.zone then i.localTime - j.localTime else i.universal - j.universal

/-- Whether the zone of an instant leaves open how far it is from universal time. -/
def isUnsure (i : Instant) : Bool := i.zone.isUnsure i.localTime

/-- Whether an instant lies before another. -/
def before (i j : Instant) : Bool := decide (i.since j < 0)

/-- Whether two instants are the same. Those of different zones are not if one of them is unsure. -/
def agrees (i j : Instant) : Bool :=
  i.since j == 0 && (i.zone.isSame j.zone || !(i.isUnsure || j.isUnsure))

instance : LT Instant := ⟨fun i j => i.before j⟩

instance : DecidableLT Instant := fun i j => inferInstanceAs (Decidable (i.before j = true))

instance : BEq Instant := ⟨agrees⟩

/-- The later of two instants, the first of equals. -/
def later (i j : Instant) : Instant := if i.before j then j else i

/-- Instants in order, equals as they come. Those of several places may be comparable in part only. -/
def inOrder (ts : List Instant) : List Instant :=
  if (ts.all fun t => t.zone.isFixed) || (ts.all fun t => ts.all fun t' => t.zone.isSame t'.zone) then
    ts.mergeSort fun t t' => !t'.before t
  else Ranking.sort before ts

/-- Whether a local time lies in the years 1 to 9999. -/
def isRepresentable (t : Int) : Bool :=
  daysOfDate 1 1 1 * Span.day ≤ t && t < daysOfDate 10000 1 1 * Span.day

/-- The instant whose clock shows a span more, the first of two. -/
def shift (i : Instant) (s : Span) : Except Error Instant :=
  let t := i.localTime + s
  if isRepresentable t then .ok ⟨t, i.zone.first⟩ else .error .overflow

/-! ## Printing -/

/-- A number with at least the given count of digits. -/
def padded (width : Nat) (n : Int) : String :=
  let ds := Nat.toDigits 10 n.natAbs
  String.ofList (List.replicate (width - ds.length) '0' ++ ds)

/-- A point and six digits, unless there are no microseconds. -/
def fractionText (micros : Int) : String := if micros = 0 then "" else "." ++ padded 6 micros

/-- Hours and minutes of a number of seconds. -/
def clockText (seconds : Int) : String :=
  padded 2 (seconds / 3600) ++ ":" ++ padded 2 (seconds / 60 % 60)

/-- The text of a distance from universal time: seconds stand in it only where it has any. -/
def offsetText (offset : Int) : String :=
  let size := Int.ofNat offset.natAbs
  let seconds := size / Span.second
  let micros := size % Span.second
  let rest := if seconds % 60 = 0 && micros = 0 then "" else
    ":" ++ padded 2 (seconds % 60) ++ fractionText micros
  (if offset < 0 then "-" else "+") ++ clockText seconds ++ rest

/-- The text of an instant. -/
def toText (i : Instant) : String :=
  let days := i.localTime.fdiv Span.day
  let rest := i.localTime - days * Span.day
  let (y, m, d) := dateOfDays days
  let seconds := rest / Span.second
  let date := padded 4 y ++ "-" ++ padded 2 m ++ "-" ++ padded 2 d
  date ++ "T" ++ clockText seconds ++ ":" ++ padded 2 (seconds % 60) ++
    fractionText (rest % Span.second) ++ offsetText i.offset

/-! ## Reading -/

open TimeOfDay

/-- A date, in days from the start of 1970, and the rest. -/
def readDate (cs : List Char) : Option (Int × List Char) := do
  let (y, cs) ← takeNumber 4 cs
  let cs ← takeChar (· = '-') cs
  let (m, cs) ← takeNumber 2 cs
  let cs ← takeChar (· = '-') cs
  let (d, cs) ← takeNumber 2 cs
  if 1 ≤ y && 1 ≤ m && m ≤ 12 && 1 ≤ d && d ≤ daysInMonth y m then some (daysOfDate y m d, cs)
  else none

/-- Whether a character is a minus: the hyphen, or the sign of its own. -/
def isMinus (c : Char) : Bool := c = '-' || c = '\u2212'

/-- The distance from universal time at the end of a text, in minutes. -/
def readOffset : List Char → Option Int
  | [] => some 0
  | ['Z'] => some 0
  | ['z'] => some 0
  | c :: cs => do
    if c ≠ '+' && !isMinus c then none
    let (h, cs) ← takeNumber 2 cs
    let (m, cs) ← takeSixtieth ((takeChar (· = ':') cs).getD cs)
    if !cs.isEmpty || h > 23 then none
    return if isMinus c then -(h * 60 + m) else h * 60 + m

/-- The instant that a written date, or date and time, names. -/
def readText (s : String) : Option Instant := do
  let (days, cs) ← readDate s.toList
  match cs with
  | [] => return ⟨days * Span.day, 0⟩
  | c :: cs =>
    if c ≠ 'T' && c ≠ 't' && c ≠ ' ' && c ≠ '_' then none
    let (t, cs) ← readTime cs
    let offset ← readOffset cs
    return ⟨days * Span.day + t, .fixed (offset * 60 * Span.second)⟩

/-- The seconds beyond which a number counts milliseconds. -/
def watershed : Int := 20000000000

/-- The instant that lies a number of seconds and microseconds after the start of 1970. -/
def ofTimestamp (seconds micros : Int) : Option Instant :=
  let t :=
    if seconds.natAbs ≤ watershed.natAbs then seconds * Span.second + micros
    else seconds * 1000 + micros
  if isRepresentable t then some ⟨t, 0⟩ else none

/-- The whole seconds below a number. -/
def floor? (x : Float) : Option Int :=
  (Number.truncate? x).map fun n => if Span.fraction x < 0.0 then n - 1 else n

/-- The instant of a number of seconds: the whole seconds below it, and its fraction without the
sign. -/
def ofSeconds (x : Float) : Option Instant := do
  let n ← floor? x
  ofTimestamp n (Span.roundAway (Float.abs (Span.fraction x) * 1e6))

/-- The instant of a written number of seconds with a point: the whole seconds below it, and what
is left. Milliseconds are told by the number, and once more by its seconds. -/
def ofDecimal (x : Float) : Option Instant := do
  let x := if Float.abs x > 2e10 then x / 1000.0 else x
  let n ← floor? x
  let below ← Number.ofInt? n
  ofTimestamp n (Span.roundAway ((x - below) * 1e6))

/-- Adds the digits behind a point one by one, each divided by its place. -/
def addPlaces (x : Float) (ds : List Char) : Float :=
  (ds.foldl (fun (x, place) d => (x + Float.ofNat (d.toNat - 48) / place, place * 10.0))
    (x, 10.0)).1

/-- The instant that a text of digits names, with or without a point after the first of them. -/
def readStamp (s : String) : Option Instant :=
  let (negative, cs) := Number.takeSign s.toList
  let whole := cs.takeWhile Number.plainDigit
  let n := Int.ofNat (Number.readDigits whole)
  if whole.isEmpty || !Reader.isWord n then none
  else match cs.dropWhile Number.plainDigit with
    | [] => ofTimestamp (if negative then -n else n) 0
    | '.' :: part =>
      if !part.all Number.plainDigit then none
      else (Number.ofInt? n).bind fun x =>
        ofDecimal (if negative then -(addPlaces x part) else addPlaces x part)
    | _ => none

/-- Reads an instant: a written date and time, or a number of seconds. -/
def reader : Reader Instant := fun v =>
  let found := match v with
    | .text s => (readText s).orElse fun _ => readStamp s
    | .int n => ofTimestamp n 0
    | .float x => ofSeconds x
    | _ => none
  match found with
  | some i => .ok i
  | none => Reader.fail .badInstant

end Instant

end Credence
