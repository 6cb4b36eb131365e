import Credence.Pattern.Printer
/-!
# Variants

Two patterns are variants when one becomes the other by exchanging variables one
for one. The key of a pattern is its text with every variable replaced by the place
of its first occurrence, so that variants have one key.
-/

namespace Credence.Pattern

mutual

/-- The text of a pattern with its variables replaced by their places in a list. -/
def numbered (names : List String) : Pattern → List Char
  | .var v => '$' :: '#' :: (toString (names.idxOf v)).toList
  | .node k n => render (.node k n)
  | .link k cs => '(' :: k.name.toList ++ numberedList names cs ++ [')']

/-- The same for a list of patterns, each after a space. -/
def numberedList (names : List String) : List Pattern → List Char
  | [] => []
  | c :: cs => ' ' :: numbered names c ++ numberedList names cs

end

/-- The key that a pattern shares with its variants. -/
def variantKey (p : Pattern) : String := String.ofList (p.numbered p.vars)

end Credence.Pattern
