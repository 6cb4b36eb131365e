import Credence.Pattern.Printer
import Credence.Pattern.Source
import Credence.Store.Reference
/-!
# Adding what documents describe

`add` takes one atom apart into kind, name, children and truth value and refuses
what does not fit, in that order. `assert` adds a whole ground tree, reusing the
atoms that are already there.
-/

namespace Credence.Store

/-- The truth value of a document, the usual one if it is missing. -/
def truthOf (v : Value) : Except Error Truth :=
  match v with
  | .null => .ok .default
  | v => (Truth.ofValue v).mapError .truth

/-- The children that a link's references name. -/
def children (s : Store) (refs : List Value) : Except Error (List AtomId) :=
  refs.mapM fun v =>
    match s.find? (.ofValue v) with
    | some id => .ok id
    | none => .error (.dangling v)

/-- Adds the atom that a kind, a name, children and a truth value describe. -/
def add (kind name : Value) (outgoing : List Value) (truth : Value) : StoreM AtomId := do
  let keyword : Option Kind := match kind with
    | .text word => Kind.ofKeyword? word
    | _ => none
  match keyword with
  | none => throw (.unknownAtomKind kind)
  | some (.node k) =>
    if !outgoing.isEmpty then throw (.outgoingCount (.node k) (.ofNat outgoing.length))
    match name with
    | .text n =>
      if n.isEmpty then throw (.missingName k)
      let t ← truthOf truth
      addNode k n t
    | _ => throw (.missingName k)
  | some (.link k) =>
    if !k.accepts outgoing.length then
      throw (.outgoingCount (.link k) (.ofNat outgoing.length))
    match name with
    | .null =>
      let t ← truthOf truth
      let s ← get
      let out ← s.children outgoing
      addLinkWritten k out outgoing t
    | _ => throw (.unexpectedName k)

/-- Adds a ground tree, reusing the atoms that exist, and gives its root the truth value. -/
def assert (p : Pattern) (truth : Option Truth) : StoreM AtomId := do
  if !p.isGround then throw (.pattern (.notGround p.toText))
  let root ← ensure truth p
  match truth with
  | none => return root
  | some t =>
    settle root t
    return root

/-- Adds a ground tree with the truth value of a document. -/
def assertValue (p : Pattern) (truth : Value) : StoreM AtomId := do
  if !p.isGround then throw (.pattern (.notGround p.toText))
  match truth with
  | .null => assert p none
  | v =>
    let t ← ((Truth.ofValue v).mapError Error.truth : Except Error Truth)
    assert p (some t)

/-- Adds the ground tree of a source with the truth value of a document. -/
def assertFrom (src : Pattern.Source) (truth : Value) : StoreM AtomId := do
  let p ← src.pattern
  assertValue p truth

/-- Replaces the truth value of the atom that a document refers to. -/
def setTruthValue (ref truth : Value) : StoreM Truth := do
  let t ← ((Truth.ofValue truth).mapError Error.truth : Except Error Truth)
  let s ← get
  let id ← s.resolve ref
  setTruth id t

end Credence.Store
