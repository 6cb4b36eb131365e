import Credence.Time.TimeOfDay
/-!
# Durations

A duration is written in the notation `P1DT2H3M4.5S`, as a number of days and a time
(`1 day, 02:03:04`), as a time alone, or as a number of seconds. Its size is counted
in days, seconds and microseconds, each of which has to fit into a word of 32 bits
on the way; a size of more than `999999999` days is refused.

The largest size can be written, yet with a minus and anything beside the days it
lies below the least span: that is an overflow, and no misfit.
-/

namespace Credence

/-- The size of a duration. -/
structure Length where
  days : Nat
  seconds : Nat
  micros : Nat
deriving Repr, DecidableEq

namespace Length

/-- A count that fits into a word. -/
def word? (n : Nat) : Option Nat := if n < Number.twos 32 then some n else none

/-- The whole part of a double that is not negative. -/
def whole (x : Float) : Nat := ((Number.truncate? x).getD 0).toNat

/-- Adds seconds, and their fraction in microseconds. -/
def addSeconds (l : Length) (x : Float) : Option Length := do
  let seconds ← word? (l.seconds + whole x)
  return { l with
    seconds := seconds
    micros := l.micros + (Span.roundAway (Span.fraction x * 1e6)).toNat }

/-- Adds a count of some unit of the time, and a fraction of that unit. -/
def addTime (l : Length) (count unit : Nat) (fraction : Float) : Option Length := do
  let seconds ← word? (l.seconds + (← word? (count * unit)))
  { l with seconds := seconds }.addSeconds (fraction * Float.ofNat unit)

/-- Adds a count of some unit of the date, and a fraction of that unit. -/
def addDate (l : Length) (count unit : Nat) (fraction : Float) : Option Length := do
  let days ← word? (l.days + (← word? (count * unit)))
  let part := fraction * Float.ofNat unit
  let days ← word? (days + whole part)
  { l with days := days }.addSeconds (Span.fraction part * 86400.0)

/-- All of a size in microseconds, if its seconds with the full ones among its microseconds fit
into a word and it lasts at most `999999999` days. -/
def total? (l : Length) : Option Span := do
  let seconds ← word? (l.seconds + l.micros / 1000000)
  let s := Int.ofNat (l.days * 86400 + seconds) * Span.second + Int.ofNat (l.micros % 1000000)
  if Span.isRepresentable s then some s else none

/-- The span of a size with a sign. -/
def toSpan (l : Length) (negative : Bool) : Checked Span :=
  match l.total? with
  | none => Reader.fail .badSpan
  | some s =>
    if !negative then .ok s
    else if Span.isRepresentable (-s) then .ok (-s)
    else .error .overflow

end Length

namespace Duration

open TimeOfDay

/-! ## The notation with units -/

/-- The seconds of a unit of the time. -/
def timeUnit? (c : Char) : Option Nat :=
  if c = 'H' then some 3600 else if c = 'M' then some 60 else if c = 'S' then some 1 else none

/-- The days of a unit of the date. -/
def dateUnit? (c : Char) : Option Nat :=
  if c = 'Y' then some 365 else if c = 'M' then some 30 else if c = 'W' then some 7
  else if c = 'D' then some 1 else none

/-- Where a reader stands: whether the mark `T` has been passed, whether an amount with a fraction
has, the count and the fraction of the amount that has begun, and the size so far. -/
structure State where
  time : Bool
  last : Bool
  count : Option Nat
  fraction : Option (Float × Float)
  size : Length

/-- A digit goes on with the fraction or the count of an amount, or begins one. -/
def State.digit (st : State) (d : Nat) : Option State :=
  match st.fraction with
  | some (x, scale) =>
    some { st with fraction := some (x * 10.0 + Float.ofNat d, scale * 10.0) }
  | none =>
    if st.count.isNone && st.last then none
    else (Length.word? (st.count.getD 0 * 10 + d)).map fun n => { st with count := some n }

/-- A unit ends an amount. -/
def State.unit (st : State) (count : Nat) (c : Char) : Option State := do
  let part := (st.fraction.map fun f => f.1 / f.2).getD 0.0
  let size ← if st.time then (timeUnit? c).bind fun u => st.size.addTime count u part
    else (dateUnit? c).bind fun u => st.size.addDate count u part
  return { st with last := st.fraction.isSome, count := none, fraction := none, size := size }

/-- Takes one character. Of a fraction nothing but its mark is needed. -/
def State.step (st : State) (c : Char) : Option State :=
  if Number.plainDigit c then st.digit (c.toNat - 48)
  else match st.count with
    | none => if c = 'T' && !st.time then some { st with time := true } else none
    | some n =>
      if (c = '.' || c = ',') && st.fraction.isNone then
        some { st with fraction := some (0.0, 1.0) }
      else st.unit n c

/-- The size that the amounts behind the mark `P` add up to. -/
def readUnits (cs : List Char) : Option Length := do
  let st ← cs.foldlM State.step ⟨false, false, none, none, ⟨0, 0, 0⟩⟩
  if st.count.isSome then none else return st.size

/-! ## Days and times -/

/-- The most hours that a time counts: those of `100000000` days. -/
def mostHours : Nat := 2400000000

/-- A time: hours of up to ten digits, minutes and perhaps seconds. The bound on the hours does not
count what stands behind them, and what stands behind the sixth place of a fraction is not looked
at. -/
def readClock (cs : List Char) : Option Length := do
  if cs.length < 5 then none
  let hours := cs.takeWhile (· ≠ ':')
  if hours.length > 10 || !hours.all Number.plainDigit then none
  let h := Number.readDigits hours
  if h > mostHours then none
  let cs ← takeChar (· = ':') (cs.dropWhile (· ≠ ':'))
  let (m, cs) ← readMinutes (cs.take 12)
  if !cs.isEmpty then none
  return ⟨h / 24, h % 24 * 3600 + m.natAbs / 1000000, m.natAbs % 1000000⟩

/-- A count in front of a text, and the rest. -/
def readCount (cs : List Char) : Option (Nat × List Char) := do
  let ds := cs.takeWhile Number.plainDigit
  if ds.isEmpty then none
  let n ← Length.word? (Number.readDigits ds)
  return (n, cs.dropWhile Number.plainDigit)

/-- Whether a character is a letter, small or large. -/
def isLetter (small c : Char) : Bool := c.toLower = small

/-- What follows the word for days: `d`, `day` or `days`. All letters behind the first are small, or
all are large. -/
def skipDays (cs : List Char) : Option (List Char) := do
  let cs ← takeChar (isLetter 'd') cs
  match cs with
  | 'a' :: cs =>
    let cs ← takeChar (· = 'y') cs
    return (takeChar (· = 's') cs).getD cs
  | 'A' :: cs =>
    let cs ← takeChar (· = 'Y') cs
    return (takeChar (· = 'S') cs).getD cs
  | cs => return cs

/-- A number of days, and perhaps a time of less than a day behind a comma, a space or both. -/
def readDays (cs : List Char) : Option Length := do
  let (n, cs) ← readCount cs
  let cs ← skipDays ((takeChar (· = ' ') cs).getD cs)
  let cs := (takeChar (· = ',') cs).getD cs
  let cs := (takeChar (· = ' ') cs).getD cs
  if cs.isEmpty then return ⟨n, 0, 0⟩
  let t ← readClock cs
  if t.days = 0 then return { t with days := n } else none

/-! ## Reading -/

/-- The size that a text names behind its sign. The notation with units takes at least one amount,
and so two characters behind its mark. -/
def readSize (cs : List Char) : Option Length :=
  match cs with
  | 'P' :: rest => if rest.length < 2 then none else readUnits rest
  | cs => if cs.any (isLetter 'd') then readDays cs else readClock cs

/-- The span of a text. -/
def ofText (s : String) : Checked Span :=
  let (negative, cs) := Number.takeSign s.toList
  match readSize cs with
  | some l => l.toSpan negative
  | none => Reader.fail .badSpan

/-- The span of a whole number of seconds. Its days are counted in a word, so that those of a huge
number start again at zero. -/
def ofSeconds (n : Int) : Checked Span :=
  if Reader.isWord n then
    (Length.mk (n.natAbs / 86400 % Number.twos 32) (n.natAbs % 86400) 0).toSpan (n < 0)
  else Reader.fail .badSpan

/-- The span of a number of seconds, a half microsecond rounded away from zero. -/
def ofFloat (x : Float) : Checked Span :=
  if Number.isFinite x then
    let seconds := Length.whole (Float.abs x)
    (Length.mk (seconds / 86400) (seconds % 86400)
      (Span.roundAway (Float.abs (Span.fraction x) * 1e6)).toNat).toSpan (x < 0.0)
  else Reader.fail .badSpan

/-- Reads a duration: a number of seconds, or a text. -/
def reader : Reader Span
  | .int n => ofSeconds n
  | .bool b => ofSeconds (if b then 1 else 0)
  | .float x => ofFloat x
  | .text s => ofText s
  | _ => Reader.fail .badSpan

end Duration

end Credence
