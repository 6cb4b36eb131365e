import Credence.Pattern.Printer
import Credence.Store.Basic
/-!
# Atoms as patterns

Every atom is described by a tree: a node by its kind and name, a link by the trees
of its children, a variable node by a variable. A link refers to older atoms only,
so a tree is no deeper than the identifier of its root.
-/

namespace Credence.Store

/-- The pattern of a node. -/
def patternOfNode (k : NodeKind) (name : String) : Except Error Pattern :=
  match k with
  | .variable => (Pattern.ofVariable (.text name)).mapError .pattern
  | k => .ok (.node (.node k) name)

/-- The tree of an atom that is less than `depth` links deep. -/
def patternWithin (s : Store) : Nat → AtomId → Except Error Pattern
  | 0, id => .error (.notFound (.int (Int.ofNat id)))
  | depth + 1, id =>
    match s.get? id with
    | none => .error (.notFound (.int (Int.ofNat id)))
    | some a =>
      match a.form with
      | .node k name => patternOfNode k name
      | .link k out => (out.mapM (s.patternWithin depth)).map (.link (.link k))

/-- The tree that describes an atom. -/
def toPattern (s : Store) (id : AtomId) : Except Error Pattern := s.patternWithin (id + 1) id

/-- The text of an atom. -/
def toText (s : Store) (id : AtomId) : Except Error String := (s.toPattern id).map Pattern.toText

/-- The texts of several atoms. -/
def toTexts (s : Store) (ids : List AtomId) : Except Error (List String) := ids.mapM s.toText

end Credence.Store

namespace Credence

/-- The record of an atom. -/
def Atom.toValue (a : Atom) : Value :=
  .record <| [("atomId", .int (Int.ofNat a.id)), ("atomType", .text a.kind.name),
    ("truthValue", a.truth.toValue)] ++
    match a.form with
    | .node _ name => [("atomName", .text name)]
    | .link _ _ => [("outgoing", .list a.written)]

end Credence
