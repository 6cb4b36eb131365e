import Credence.Document.Agreement
import Credence.Store.Conjunction
import Credence.Store.Reference
/-!
# Bindings as they are written

Callers write the references of bindings in any form: `2`, `2.0` and `true` may name
atoms, other documents name none. Matching itself knows identifiers only. Written
bindings are read into identifiers, and what is found is written back: a variable
that was bound keeps its reference, and one that a link binds takes the reference of
its place in that link.

A reference without an atom is read as an identifier past those of all atoms, the
same one for references that agree, so it matches nothing else; errors name the
reference again.
-/

namespace Credence

/-- Variables bound to references as they are written. A missing reference binds nothing. -/
abbrev Spelling := Table String Value

namespace Spelling

/-- The reference that a variable is bound to. -/
def bound? (w : Spelling) (v : String) : Option Value :=
  match w.get? v with
  | some .null => none
  | r => r

/-- The references of bindings that name no atom, each once. -/
def strangers (s : Store) (w : Spelling) : List Reference :=
  (Reference.distinct ((w.keys.filterMap w.bound?).map .ofValue)).filter fun r =>
    (s.find? r).isNone

/-- The identifier that a reference is read as, given the references that name no atom. -/
def identifier (s : Store) (strangers : List Reference) (v : Value) : AtomId :=
  let r := Reference.ofValue v
  (s.find? r).getD (s.nextId + strangers.findIdx r.agrees)

/-- The bindings that written ones are read as. -/
def read (s : Store) (w : Spelling) : Bindings :=
  let rs := w.strangers s
  ⟨w.keys.filterMap fun v => (w.bound? v).map fun r => (v, identifier s rs r)⟩

/-- An error about an identifier past all atoms as one about its reference. -/
def blame (s : Store) (w : Spelling) : Error → Error
  | .notFound (.int (.ofNat n)) =>
    match if n < s.nextId then none else (w.strangers s)[n - s.nextId]? with
    | some r => .notFound r.toValue
    | none => .notFound (.int (.ofNat n))
  | e => e

/-- Asks a question about bindings of identifiers for written ones. -/
def reading {α : Type} (s : Store) (w : Spelling) (question : Bindings → Reading α) : Reading α :=
  tryCatch (question (w.read s)) fun e => throw (w.blame s e)

mutual

/-- The bindings that a pattern adds where it matches the atom of a reference. -/
def extend (s : Store) : Pattern → Value → Spelling → Spelling
  | .var v, r, w => if (w.bound? v).isSome then w else w.insert v r
  | .node _ _, _, w => w
  | .link _ cs, r, w =>
    match s.atomOf r with
    | .ok a => extendList s cs a.written w
    | .error _ => w

/-- The bindings that patterns add where they match the atoms of references. -/
def extendList (s : Store) : List Pattern → List Value → Spelling → Spelling
  | c :: cs, r :: rs, w => extendList s cs rs (extend s c r w)
  | _, _, w => w

end

/-- The reference of a pattern's atom: that of a variable bound before, or the identifier. -/
def reference (w : Spelling) (p : Pattern) (id : AtomId) : Value :=
  match p with
  | .var v => (w.bound? v).getD (.int (Int.ofNat id))
  | _ => .int (Int.ofNat id)

end Spelling

/-- A match as it is written. -/
structure Finding where
  bindings : Spelling
  atomId : AtomId
  reference : Value

/-- The written form of a match that extends written bindings. -/
def Finding.ofMatch (s : Store) (p : Pattern) (w : Spelling) (m : Match) : Finding :=
  let r := w.reference p m.atomId
  ⟨Spelling.extend s p r w, m.atomId, r⟩

/-- A solution as it is written. -/
structure WrittenSolution where
  bindings : Spelling
  references : List Value

/-- The written form of a solution that extends written bindings. -/
def WrittenSolution.ofSolution (s : Store) (ps : List Pattern) (w : Spelling) (sol : Solution) :
    WrittenSolution :=
  let (w, rs) := (ps.zip sol.atomIds).foldl
    (fun (w, rs) (p, id) => let r := w.reference p id; (Spelling.extend s p r w, r :: rs)) (w, [])
  ⟨w, rs.reverse⟩

namespace Store

/-- Extends written bindings so that a pattern describes the atom of a reference. A variable takes
any reference; for other patterns the atom has to be stored. -/
def matchReference (s : Store) (p : Pattern) (r : Value) (w : Spelling) :
    Except Error (Option Spelling) :=
  match p with
  | .var v =>
    match w.bound? v with
    | some bound =>
      .ok (if bound.agrees r then some w else none)
    | none => .ok (some (w.insert v r))
  | p => do
    let id ← s.resolve r
    return (s.matchAtom p id (w.read s)).map fun _ => Spelling.extend s p r w

/-- Replaces bound variables by the trees of their atoms, each of which has to be stored. -/
def instantiateWritten (s : Store) (p : Pattern) (w : Spelling) : Except Error Pattern := do
  let trees ← w.entries.mapM fun e => do return (e.1, ← s.toPattern (← s.resolve e.2))
  return Substitution.apply ⟨trees⟩ p

end Store

end Credence
