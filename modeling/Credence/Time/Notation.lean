import Credence.Time.Instant
/-!
# Written dates and times

A date is written with dashes or without them, by its month or by its week: `2024-01-02`,
`20240102`, `2024-W01-2`, `2024W012`, or `2024-W01` for the Monday of a week. Behind it
and any one character may stand a time of hours, perhaps minutes and perhaps seconds with
a fraction, with colons or without them, and behind that `Z` or the distance from
universal time, written as a time with a sign.

A text is first read by its form alone; only then its parts have to name an instant. Behind
the last part a zero character counts as the end of the text.
-/

namespace Credence

/-- A date and time by the parts that are written; the distance from universal time, if there is
one, in microseconds. -/
structure WrittenTime where
  date : Int × Int × Int
  hour : Int
  minute : Int
  second : Int
  micros : Int
  offset : Option Int
deriving Repr, DecidableEq

namespace WrittenTime

open TimeOfDay

/-! ## Dates -/

/-- Where the date of a text ends. With a week, the text behind it decides whether a day of the
week belongs to the date. -/
def dateEnd (cs : List Char) : Nat :=
  let isDigitAt (i : Nat) : Bool := (cs[i]?).any Number.plainDigit
  if cs.length = 7 then 7
  else if cs[4]? = some '-' then
    if cs[5]? = some 'W' && !(cs[8]? = some '-' && !isDigitAt 10) then 8 else 10
  else if cs[4]? = some 'W' then
    let n := 7 + ((cs.drop 7).takeWhile Number.plainDigit).length
    if n < 9 then n else if n % 2 = 0 then 7 else 8
  else 8

/-- The day of the week of a day, zero for a Monday. -/
def weekday (days : Int) : Int := (days + 3) % 7

/-- The Monday of the first week of a year, the week that holds its first Thursday. -/
def firstMonday (year : Int) : Int :=
  let start := Instant.daysOfDate year 1 1
  let w := weekday start
  if w > 3 then start - w + 7 else start - w

/-- Whether a year has 53 weeks. -/
def isLong (year : Int) : Bool :=
  let w := weekday (Instant.daysOfDate year 1 1)
  w = 3 || (w = 2 && Instant.isLeap year)

/-- The date of a day of a week. A day in front of the year one lies in no month: its month is
zero. -/
def dateOfWeek (year week day : Int) : Option (Int × Int × Int) :=
  if week < 1 || week > (if isLong year then 53 else 52) || day < 1 || day > 7 then none
  else
    let days := firstMonday year + (week - 1) * 7 + day - 1
    some (if days < Instant.daysOfDate 1 1 1 then (1, 0, 0) else Instant.dateOfDays days)

/-- A dash in front of a part, where dashes are written. -/
def takeDash (dashes : Bool) (cs : List Char) : Option (List Char) :=
  if dashes then takeChar (· = '-') cs else some cs

/-- The date in the first `n` characters of a text. -/
def readDate (n : Nat) (cs : List Char) : Option (Int × Int × Int) := do
  let (y, rest) ← takeNumber 4 cs
  let dashes := rest.head? = some '-'
  let rest := if dashes then rest.drop 1 else rest
  match rest with
  | 'W' :: rest =>
    let (w, rest) ← takeNumber 2 rest
    if cs.length - rest.length < n then
      let (d, _) ← takeNumber 1 (← takeDash dashes rest)
      dateOfWeek y w d
    else dateOfWeek y w 1
  | rest =>
    let (m, rest) ← takeNumber 2 rest
    let (d, _) ← takeNumber 2 (← takeDash dashes rest)
    return (y, m, d)

/-! ## Times -/

/-- Whether a text ends here: nothing is left of it, or a zero character and whatever follows it. -/
def isEnd (cs : List Char) : Bool := cs.head?.all (· = '\x00')

/-- What stands behind a part of a time. -/
inductive Sequel where
  /-- The end, perhaps behind one ASCII character that belongs to nothing; a zero character is
  clean. -/
  | done (clean : Bool)
  | part (cs : List Char)
  | fraction (cs : List Char)

/-- What stands behind a part of a time, in a time with or without colons. -/
def sequel (colons : Bool) : List Char → Option Sequel
  | [] => some (.done true)
  | [c] => if c.toNat < 128 then some (.done (c = '\x00')) else none
  | c :: rest =>
    if colons && c = ':' then some (.part rest)
    else if c = '.' || c = ',' then some (.fraction rest)
    else if colons then none
    else some (.part (c :: rest))

/-- A time, and whether nothing is left behind it. -/
structure Clock where
  hour : Int
  minute : Int
  second : Int
  micros : Int
  clean : Bool

/-- Reads the fraction of a time whose other parts are known. Digits behind the sixth are dropped. -/
def readFraction (t : Clock) (cs : List Char) : Option Clock := do
  let width := min 6 cs.length
  let (n, rest) ← takeNumber width cs
  return { t with
    micros := n * Int.ofNat (Number.tens (6 - width))
    clean := isEnd (rest.dropWhile Number.plainDigit) }

/-- A time of one, two or three parts and perhaps a fraction, which counts as one of seconds behind
any part. A colon behind the first part asks for colons behind the second. -/
def readClock (cs : List Char) : Option Clock := do
  let (h, cs) ← takeNumber 2 cs
  let colons := cs.head? = some ':'
  match ← sequel colons cs with
  | .done clean => return ⟨h, 0, 0, 0, clean⟩
  | .fraction cs => readFraction ⟨h, 0, 0, 0, true⟩ cs
  | .part cs =>
    let (m, cs) ← takeNumber 2 cs
    match ← sequel colons cs with
    | .done clean => return ⟨h, m, 0, 0, clean⟩
    | .fraction cs => readFraction ⟨h, m, 0, 0, true⟩ cs
    | .part cs =>
      let (s, cs) ← takeNumber 2 cs
      match ← sequel colons cs with
      | .done clean => return ⟨h, m, s, 0, clean⟩
      | .fraction cs => readFraction ⟨h, m, s, 0, true⟩ cs
      | .part cs => readFraction ⟨h, m, s, 0, true⟩ cs

/-- The distance from universal time that a text with a sign or a `Z` in front names. Less than a
second counts for nothing on its own. -/
def readZone (cs : List Char) : Option Int :=
  match cs with
  | 'Z' :: rest => if isEnd rest then some 0 else none
  | c :: cs => do
    let z ← readClock cs
    if !z.clean then none
    let seconds := z.hour * 3600 + z.minute * 60 + z.second
    let size := if seconds = 0 then 0 else seconds * Span.second + z.micros
    return if c = '-' then -size else size
  | [] => none

/-- Whether a character begins a distance from universal time. -/
def isZoneMark (c : Char) : Bool := c = '+' || c = '-' || c = 'Z'

/-- The date and time of a text. Any character stands between them. -/
def read (s : String) : Option WrittenTime := do
  let cs := s.toList
  let n := dateEnd cs
  let date ← readDate n cs
  match cs.drop n with
  | [] => return ⟨date, 0, 0, 0, 0, none⟩
  | _ :: rest =>
    let t ← readClock (rest.takeWhile (!isZoneMark ·))
    match rest.dropWhile (!isZoneMark ·) with
    | [] => if t.clean then return ⟨date, t.hour, t.minute, t.second, t.micros, none⟩ else none
    | zone => return ⟨date, t.hour, t.minute, t.second, t.micros, some (← readZone zone)⟩

/-! ## Instants -/

/-- The instant of a written date and time, in universal time unless it tells its distance. -/
def instant (t : WrittenTime) : Except CalendarError Instant := do
  let offset := t.offset.getD 0
  let (y, m, d) := t.date
  if offset.natAbs ≥ Span.day.natAbs then throw (.offset offset)
  if y < 1 || y > 9999 then throw (.year y)
  if m < 1 || m > 12 then throw .month
  if d < 1 || d > Instant.daysInMonth y m then throw .day
  if t.hour > 23 then throw .hour
  if t.minute > 59 then throw .minute
  if t.second > 59 then throw .second
  let seconds := t.hour * 3600 + t.minute * 60 + t.second
  return ⟨Instant.daysOfDate y m d * Span.day + seconds * Span.second + t.micros,
    .fixed offset⟩

example : dateOfWeek 2024 1 2 = some (2024, 1, 2) := by decide +kernel

example : dateOfWeek 2020 53 5 = some (2021, 1, 1) := by decide +kernel

example : dateOfWeek 2021 53 1 = none := by decide +kernel

end WrittenTime

/-- The instant that a written date and time names. -/
def Instant.ofNotation (s : String) : Except Error Instant :=
  match WrittenTime.read s with
  | none => .error (.calendar (.unreadable s))
  | some t => t.instant.mapError .calendar

end Credence
