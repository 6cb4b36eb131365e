import Credence.Error
import Credence.Pattern.Parser
/-!
# Where patterns come from

Callers give a pattern as a tree, or as a document that has to be a text in the
pattern notation. The text is parsed when the pattern is needed.
-/

namespace Credence.Pattern

/-- A pattern as a caller gives it. -/
inductive Source where
  | tree (p : Pattern)
  | document (v : Value)

/-- The source of a text. -/
def Source.text (s : String) : Source := .document (.text s)

/-- The pattern of a source. -/
def Source.pattern : Source → Except Error Pattern
  | tree p => .ok p
  | document (.text s) => (Pattern.parse s).mapError .pattern
  | document v => .error (.pattern (.notText v.kindName))

/-- The patterns of several sources, the first failure being the outcome. -/
def Source.patterns (ss : List Source) : Except Error (List Pattern) := ss.mapM Source.pattern

end Credence.Pattern
