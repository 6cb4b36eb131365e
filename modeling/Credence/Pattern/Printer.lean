import Credence.Pattern.Basic
/-!
# Writing patterns

A variable is written by its name, a node as `(Concept "Cat")`, a link as its kind
and its children in parentheses. In a quoted name the backslash and the quote are
escaped by a backslash, and every other character stands for itself.
-/

namespace Credence.Pattern

/-- The inside of a quoted name. -/
def escape : List Char → List Char
  | [] => []
  | c :: rest => if c = '\\' || c = '"' then '\\' :: c :: escape rest else c :: escape rest

/-- A quoted name. -/
def quote (name : String) : List Char := '"' :: escape name.toList ++ ['"']

mutual

/-- The characters of a written pattern. -/
def render : Pattern → List Char
  | .var v => v.toList
  | .node k n => '(' :: k.name.toList ++ ' ' :: quote n ++ [')']
  | .link k cs => '(' :: k.name.toList ++ renderList cs ++ [')']

/-- The characters of written patterns, each after a space. -/
def renderList : List Pattern → List Char
  | [] => []
  | c :: cs => ' ' :: render c ++ renderList cs

end

/-- The text of a pattern. -/
def toText (p : Pattern) : String := String.ofList p.render

instance : ToString Pattern := ⟨toText⟩

end Credence.Pattern
