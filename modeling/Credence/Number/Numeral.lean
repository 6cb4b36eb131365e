import Credence.Number.Double
import Credence.Text.Blank
import Credence.Text.Digit
/-!
# Reading numbers

A decimal numeral is digits, perhaps with a point and an exponent. Its exact value
`digits * 10 ^ scale` is rounded once to a double.
-/

namespace Credence.Number

open Credence.Text

/-- A decimal numeral `digits * 10 ^ scale`, negated or not. -/
structure Numeral where
  negative : Bool
  digits : Nat
  scale : Int
deriving Repr, DecidableEq

/-- A digit of the plain block. -/
def plainDigit (c : Char) : Bool := '0' ≤ c && c ≤ '9'

/-- The number that a run of plain digits names. -/
def readDigits (cs : List Char) : Nat := cs.foldl (fun n c => 10 * n + (c.toNat - 48)) 0

/-- The double nearest to a numeral; beyond the largest double the infinity of its sign. -/
def Numeral.toDouble (n : Numeral) : Float :=
  let infinity : Float := 1.0 / 0.0
  let size : Int := Int.ofNat (Nat.toDigits 10 n.digits).length + n.scale
  let magnitude :=
    if n.digits = 0 then 0.0
    else if size > 400 then infinity
    else if size < -400 then 0.0
    else if n.scale ≥ 0 then (ofRatio false (n.digits * tens n.scale.toNat) 1).getD infinity
    else (ofRatio false n.digits (tens (-n.scale).toNat)).getD infinity
  if n.negative then -magnitude else magnitude

/-- A sign, if there is one. -/
def takeSign : List Char → Bool × List Char
  | '-' :: rest => (true, rest)
  | '+' :: rest => (false, rest)
  | cs => (false, cs)

/-- An exponent part. -/
def readExponent : List Char → Option Int
  | [] => some 0
  | c :: rest =>
    if c = 'e' || c = 'E' then
      let (negative, ds) := takeSign rest
      if ds.isEmpty || !ds.all plainDigit then none
      else some (if negative then -Int.ofNat (readDigits ds) else Int.ofNat (readDigits ds))
    else none

/-- A decimal numeral: digits before or after the point, and perhaps an exponent. -/
def readNumeral (cs : List Char) : Option Numeral :=
  let (negative, cs) := takeSign cs
  let whole := cs.takeWhile plainDigit
  let rest := cs.dropWhile plainDigit
  let (fraction, rest) := match rest with
    | '.' :: more => (more.takeWhile plainDigit, more.dropWhile plainDigit)
    | _ => ([], rest)
  if whole.isEmpty && fraction.isEmpty then none
  else (readExponent rest).map fun e =>
    ⟨negative, readDigits (whole ++ fraction), e - Int.ofNat fraction.length⟩

/-- The names of the values that are no numbers. -/
def readNamed (cs : List Char) : Option Float :=
  let (negative, cs) := takeSign cs
  let name := String.ofList (cs.map Char.toLower)
  let x : Option Float :=
    if name = "inf" || name = "infinity" then some (1.0 / 0.0)
    else if name = "nan" then some (0.0 / 0.0)
    else none
  if negative then x.map (- ·) else x

/-- Single underscores between the characters are left out. -/
def withoutUnderscores? (cs : List Char) : Option (List Char) :=
  let rec doubled : List Char → Bool
    | '_' :: '_' :: _ => true
    | _ :: rest => doubled rest
    | [] => false
  if cs.head? = some '_' || cs.getLast? = some '_' || doubled cs then none
  else some (cs.filter (· ≠ '_'))

/-- A text that names a double. -/
def readDouble (s : String) : Option Float :=
  let read (cs : List Char) : Option Float :=
    match readNumeral cs with
    | some n => some n.toDouble
    | none => readNamed cs
  match read (trimBy isWhiteSpace s.toList) with
  | some x => some x
  | none => (withoutUnderscores? s.toList).bind read

/-- A plain integer: perhaps a minus, then zero alone or digits that do not start with a zero. -/
def readPlainInt (cs : List Char) : Option Int :=
  let negative := cs.head? = some '-'
  let ds := if negative then cs.drop 1 else cs
  if ds.isEmpty || !ds.all plainDigit || (ds.head? = some '0' && ds.length > 1) then none
  else some (if negative then -Int.ofNat (readDigits ds) else Int.ofNat (readDigits ds))

/-- The most characters of an integer, its minus among them. -/
def longestInt : Nat := 4300

/-- Whether a text starts with a plain integer that is too long, whatever follows it. -/
def isOverlong (cs : List Char) : Bool :=
  let negative := cs.head? = some '-'
  let ds := (if negative then cs.drop 1 else cs).takeWhile plainDigit
  ds.head? ≠ some '0' && ds.length + (if negative then 1 else 0) > longestInt

/-- The characters behind a zero, without the zeros and underscores that lead them: the number
starts at its first other digit or at a minus, or at the character `last` in front of a point or of
the end. -/
def behindZeros (last : Char) : List Char → Option (List Char)
  | [] => some [last]
  | c :: rest =>
    if c = '0' || c = '_' then behindZeros c rest
    else if c = '.' then some (last :: c :: rest)
    else if plainDigit c || c = '-' then some (c :: rest)
    else none

/-- The characters of a number without leading zeros. -/
def withoutLeadingZeros? : List Char → Option (List Char)
  | [] => none
  | c :: rest =>
    if c = '0' then behindZeros c rest
    else if plainDigit c then some (c :: rest)
    else none

/-- The characters in front of a point with nothing but zeros, and at least one, behind it. -/
def withoutZeroFraction (cs : List Char) : List Char :=
  let fraction := (cs.dropWhile (· ≠ '.')).drop 1
  if !fraction.isEmpty && fraction.all (· = '0') then cs.takeWhile (· ≠ '.') else cs

/-- The digits of a number without its sign: no leading zeros, no fraction of zeros, no single
underscores between them. -/
def plainPart? (cs : List Char) : Option (List Char) := do
  let cs := withoutZeroFraction (← withoutLeadingZeros? cs)
  return (withoutUnderscores? cs).getD cs

/-- The characters of a plain integer that a text stands for: blanks around it and a plus in front
are left out, a minus stays. -/
def plainForm? (cs : List Char) : Option (List Char) :=
  match trimBy isWhiteSpace cs with
  | '-' :: cs => (plainPart? cs).map ('-' :: ·)
  | '+' :: cs => plainPart? cs
  | cs => plainPart? cs

/-- A text that names an integer: a plain one, or one with blanks around it, a plus, leading zeros,
single underscores, or a fraction of zeros. -/
def readInt (s : String) : Option Int :=
  match readPlainInt s.toList with
  | some n => some n
  | none => do
    let cs ← plainForm? s.toList
    if cs.length > longestInt then none else readPlainInt cs

/-- The number named by digits of any decimal block. -/
def readAnyDigits (cs : List Char) : Nat :=
  cs.foldl (fun n c => 10 * n + (digitValue? c).getD 0) 0

example : readNumeral ['1', '.', '5', 'e', '3'] = some ⟨false, 15, 2⟩ := by decide

example : (plainForm? ['-', '0', '1', '.', '0']).bind readPlainInt = some (-1) := by decide +kernel

example : (plainForm? ['-', '_', '1']).bind readPlainInt = none := by decide +kernel

end Credence.Number
