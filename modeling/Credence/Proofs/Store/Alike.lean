import Credence.Proofs.Store.Question
/-!
# Stores that answer alike

Whatever looks at a store without looking at truth values asks a few questions: what an
atom is, which links hold it, which link has given children, which tree it has and
which atoms match a pattern. Stores that agree on these agree on all the rest. Twins do,
and so does a store whose calls are counted differently.
-/

namespace Credence.Store

/-- Stores that give the same answers where truth values do not count. -/
structure Alike (s s' : Store) : Prop where
  form : ∀ id, (s'.get? id).map Atom.form = (s.get? id).map Atom.form
  linksOver : s'.linksOver = s.linksOver
  findLink : s'.findLink = s.findLink
  toPattern : s'.toPattern = s.toPattern
  matchesFrom : s'.matchesFrom = s.matchesFrom

variable {s s' : Store}

theorem Alike.toText (h : Alike s s') : s'.toText = s.toText := by
  funext id
  unfold Store.toText
  rw [h.toPattern]

theorem Alike.toTexts (h : Alike s s') : s'.toTexts = s.toTexts := by
  funext ids
  unfold Store.toTexts
  rw [h.toText]

theorem Alike.readMatches (h : Alike s s') : Reading.matchesFrom s' = Reading.matchesFrom s := by
  funext p b
  unfold Reading.matchesFrom
  rw [h.matchesFrom]

theorem Alike.readLookup (h : Alike s s') : Reading.lookup s' = Reading.lookup s := by
  funext p
  unfold Reading.lookup
  rw [h.readMatches]

theorem Twin.alike {α : Type} {part : Truth → α} (h : Twin part s s') (hs : s.Inv) (hs' : s'.Inv) :
    Alike s s' where
  form := h.form
  linksOver := h.linksOver hs hs'
  findLink := funext fun k => funext (h.findLink hs hs' k)
  toPattern := h.toPattern
  matchesFrom := funext fun p => funext (h.matchesFrom hs hs' p)

/-! ## Counts -/

/-- The same store with another number of lookups. -/
def withLookups (s : Store) (n : Nat) : Store := { s with tally := { s.tally with lookups := n } }

theorem twin_withLookups (s : Store) (n : Nat) : Twin id s (s.withLookups n) :=
  twin_of_atoms_eq rfl rfl

theorem alike_withLookups (s : Store) (n : Nat) : Alike s (s.withLookups n) where
  form _ := rfl
  linksOver := rfl
  findLink := rfl
  toPattern := (twin_withLookups s n).toPattern
  matchesFrom := by
    have hmatch : (s.withLookups n).matchAtom = s.matchAtom := funext fun p => funext fun id =>
      funext fun b => (twin_withLookups s n).matchAtom p id b
    funext p b
    unfold Store.matchesFrom
    rw [hmatch]
    rfl

end Credence.Store
