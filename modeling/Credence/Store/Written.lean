import Credence.Pattern.Source
import Credence.Store.Query
import Credence.Store.Spelling
/-!
# Questions as they are written

Questions come with patterns that are still to be parsed, kinds that are still to be
named and limits that may be negative. Patterns are looked at first, then limits,
then kinds.
-/

namespace Credence.Reading

/-- The matches of a written pattern. -/
def findWritten (s : Store) (src : Pattern.Source) (limit : Option Scalar) :
    Reading (List Finding) := do
  let p ← src.pattern
  let limit ← limitOf limit
  let ms ← find s p limit
  return ms.map (Finding.ofMatch s p .empty)

/-- The solutions of several written patterns. -/
def solveWritten (s : Store) (srcs : List Pattern.Source) (limit : Option Scalar)
    (w : Spelling) : Reading (List WrittenSolution) := do
  let ps ← Pattern.Source.patterns srcs
  let limit ← limitOf limit
  let sols ← Spelling.reading s w (solutions s ps limit)
  return sols.map (WrittenSolution.ofSolution s ps w)

/-- The matches of a pattern that extend written bindings. -/
def matchesWritten (s : Store) (p : Pattern) (w : Spelling) : Reading (List Finding) := do
  let ms ← Spelling.reading s w (matchesFrom s p)
  return ms.map (Finding.ofMatch s p w)

/-- The kind that a word of a search names. -/
def kindOf : Value → Except Error (Option Kind)
  | .null => .ok none
  | .text word => match Kind.ofKeyword? word with
    | some k => .ok (some k)
    | none => .error (.unknownAtomKind (.text word))
  | v => .error (.unknownAtomKind v)

/-- The atoms that a written search finds. -/
def queryWritten (s : Store) (text : String) (kind : Value) (limit : Scalar) :
    Reading (List Atom) := do
  let limit ← limitOf (some limit)
  let k ← kindOf kind
  query s text k limit

end Credence.Reading
