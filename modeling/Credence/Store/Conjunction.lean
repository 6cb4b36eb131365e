import Credence.Store.Match
/-!
# Matching several patterns at once

A solution of a list of patterns gives every variable one atom throughout and
matches each pattern to an atom. Solutions come in the order of the atoms of the
first pattern, then of the second, and so on.

`solutions` lists them all. `Enumeration` lists at most a given number of them and
stops there; it counts the name lookups on the way.
-/

namespace Credence

/-- A solution: the bindings, and the atom of each pattern. -/
structure Solution where
  bindings : Bindings
  atomIds : List AtomId
deriving Repr, DecidableEq

namespace Store

/-- The solutions of a list of patterns that extend the bindings. -/
def solutions (s : Store) : List Pattern → Bindings → Except Error (List Solution)
  | [], b => .ok [⟨b, []⟩]
  | p :: ps, b => do
    let ms ← s.matchesFrom p b
    let rests ← ms.mapM fun m =>
      (s.solutions ps m.bindings).map fun sols =>
        sols.map fun sol => { sol with atomIds := m.atomId :: sol.atomIds }
    return rests.flatten

end Store

/-- What a capped enumeration has found, and how many more it may find. -/
structure Enumeration where
  found : List Solution
  room : Option Nat

/-- Whether an enumeration has reached its cap. -/
def Enumeration.isFull (e : Enumeration) : Bool := e.room = some 0

/-- Takes one more solution. -/
def Enumeration.take (e : Enumeration) (sol : Solution) : Enumeration :=
  ⟨sol :: e.found, e.room.map (· - 1)⟩

namespace Reading

/-- Enumerates the solutions of patterns after those of the patterns before them. -/
def enumerate (s : Store) : List Pattern → Bindings → List AtomId → Enumeration →
    Reading Enumeration
  | [], b, used, e => return e.take ⟨b, used.reverse⟩
  | p :: ps, b, used, e => do
    let ms ← matchesFrom s p b
    ms.foldlM
      (fun e m => if e.isFull then return e else enumerate s ps m.bindings (m.atomId :: used) e) e

/-- At most `limit` solutions of a list of patterns, all of them without a limit. -/
def solutions (s : Store) (ps : List Pattern) (limit : Option Nat) (b : Bindings) :
    Reading (List Solution) :=
  match limit with
  | some 0 => return []
  | limit => do
    let e ← enumerate s ps b [] ⟨[], limit⟩
    return e.found.reverse

end Reading

end Credence
