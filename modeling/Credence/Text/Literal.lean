import Credence.Text.Unprinted
/-!
# Text in messages

A text inside a message stands in single quotes, or in double quotes when it
holds a single quote and no double one. The quote in use, the backslash and the
characters that do not print are escaped.
-/

namespace Credence.Text

/-- The lower hexadecimal digits of a number, filled up with zeros. -/
def hex (width n : Nat) : List Char :=
  let ds := Nat.toDigits 16 n
  List.replicate (width - ds.length) '0' ++ ds

/-- One character of a text in a message. -/
def literalChar (quote c : Char) : List Char :=
  if c = quote || c = '\\' then ['\\', c]
  else if c = '\n' then ['\\', 'n']
  else if c = '\r' then ['\\', 'r']
  else if c = '\t' then ['\\', 't']
  else if isPrinted c then [c]
  else if c.toNat < 0x100 then '\\' :: 'x' :: hex 2 c.toNat
  else if c.toNat < 0x10000 then '\\' :: 'u' :: hex 4 c.toNat
  else '\\' :: 'U' :: hex 8 c.toNat

/-- The quote for a text: double only if that avoids an escape. -/
def quoteFor (cs : List Char) : Char :=
  if cs.contains '\'' && !cs.contains '"' then '"' else '\''

/-- A text as it stands in a message. -/
def literal (s : String) : String :=
  let q := quoteFor s.toList
  String.ofList (q :: s.toList.flatMap (literalChar q) ++ [q])

example : literal "it's" = "\"it's\"" := by decide +kernel

example : literal "a\n\\\"'" = "'a\\n\\\\\"\\''" := by decide +kernel

end Credence.Text
