import Credence.Store.Basic
/-!
# Copies of a part of a store

A copy holds the chosen atoms and everything they refer to, under the same
identifiers. As links refer to older atoms only, one pass from the youngest atom to
the oldest finds them all.
-/

namespace Credence.Store

/-- The atoms that are wanted themselves or by a wanted link, of a list in ascending order. -/
def closure (wanted : List AtomId) (atoms : List Atom) : List Atom × List AtomId :=
  atoms.foldr
    (fun a (kept, wanted) =>
      if wanted.contains a.id then (a :: kept, a.outgoing ++ wanted) else (kept, wanted))
    ([], wanted)

/-- The store of the given atoms and everything they refer to. -/
def subset (s : Store) (ids : List AtomId) : Store :=
  let kept := (closure ids s.atoms).1
  let copy := kept.foldl index empty
  { copy with nextId := s.nextId, tally := ⟨kept.length, 0, 0⟩ }

/-- An independent copy of the whole store. -/
def snapshot (s : Store) : Store := s.subset s.ids

end Credence.Store
