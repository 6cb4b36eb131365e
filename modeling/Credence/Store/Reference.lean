import Credence.Store.Subset
import Credence.Number.Double
/-!
# References to atoms in documents

A document refers to an atom by its number. Numbers that are equal refer to the
same atom, however they are written; anything else refers to no atom.
-/

namespace Credence

/-- A reference in a document: a whole number, or something that names no atom. -/
inductive Reference where
  | number (n : Int) (v : Value)
  | other (v : Value)

/-- The reference that a document makes. -/
def Reference.ofValue : Value → Reference
  | .int n => .number n (.int n)
  | .bool b => .number (if b then 1 else 0) (.bool b)
  | .float x => match Number.toInt? x with
    | some n => .number n (.float x)
    | none => .other (.float x)
  | v => .other v

/-- The document a reference was read from. -/
def Reference.toValue : Reference → Value
  | .number _ v => v
  | .other v => v

/-- References that name the same atom, if they name one. -/
def Reference.agrees (a b : Reference) : Bool :=
  match a, b with
  | .number m _, .number n _ => m == n
  | .other v, .other w => v.literal == w.literal
  | _, _ => false

/-- References without repetitions, each at its first place. -/
def Reference.distinct (rs : List Reference) : List Reference :=
  (rs.foldl (fun acc r => if acc.any r.agrees then acc else r :: acc) []).reverse

namespace Store

/-- The identifier of the atom that a reference names. -/
def find? (s : Store) : Reference → Option AtomId
  | .number (.ofNat n) _ => if s.contains n then some n else none
  | _ => none

/-- The identifier of the atom that a reference names, which has to be in the store. -/
def locate (s : Store) (r : Reference) : Except Error AtomId :=
  match s.find? r with
  | some id => .ok id
  | none => .error (.notFound r.toValue)

/-- The identifier of the atom that a document refers to. -/
def resolve (s : Store) (v : Value) : Except Error AtomId := s.locate (.ofValue v)

/-- The atom that a document refers to. -/
def atomOf (s : Store) (v : Value) : Except Error Atom := do
  let id ← s.resolve v
  match s.get? id with
  | some a => return a
  | none => throw (.notFound v)

/-- The different atoms of a list of references, the first unknown one being an error. -/
def domain (s : Store) (vs : List Value) : Except Error (List AtomId) :=
  (Reference.distinct (vs.map .ofValue)).mapM s.locate

/-- The different atoms of a list of references, the last unknown one being an error. -/
def premises (s : Store) (vs : List Value) : Except Error (List AtomId) :=
  ((Reference.distinct (vs.map .ofValue)).reverse.mapM s.locate).map List.reverse

/-- The copy of the atoms of a list of references; the last unknown one is an error. -/
def subsetOf (s : Store) (vs : List Value) : Except Error Store :=
  ((vs.map Reference.ofValue).reverse.mapM s.locate).map fun ids => s.subset ids

end Store

end Credence
