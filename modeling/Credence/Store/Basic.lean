import Credence.Error
import Credence.Table
/-!
# The store of atoms

The store owns every atom. A link names its children by their identifiers, which
are given out in order from one, so a link only refers to atoms older than itself.
Four indexes answer the questions of the matcher: the nodes of a name, the atoms of
a kind, the links that hold an atom, and the links of a kind with given children.
Each lists identifiers in ascending order.

An operation may fail after it has begun: a failed call keeps what it has already
stored, which is why the operations run in `StoreM` and not on a private copy.
-/

namespace Credence

/-- The identifier of an atom. -/
abbrev AtomId := Nat

/-- What an atom is: a named node, or a link over older atoms. -/
inductive Form where
  | node (kind : NodeKind) (name : String)
  | link (kind : LinkKind) (outgoing : List AtomId)
deriving Repr, DecidableEq, Inhabited

/-- The kind of an atom. -/
def Form.kind : Form → Kind
  | .node k _ => .node k
  | .link k _ => .link k

/-- Whether an atom is a node. -/
def Form.isNode : Form → Bool
  | .node _ _ => true
  | .link _ _ => false

/-- The children of a link; a node has none. -/
def Form.outgoing : Form → List AtomId
  | .node _ _ => []
  | .link _ out => out

/-- A stored atom. The references to the children of a link are kept as they were written. -/
structure Atom where
  id : AtomId
  form : Form
  truth : Truth
  written : List Value
deriving Repr, Inhabited

/-- The kind of a stored atom. -/
def Atom.kind (a : Atom) : Kind := a.form.kind

/-- The name of a stored node. -/
def Atom.name? (a : Atom) : Option String :=
  match a.form with
  | .node _ name => some name
  | .link _ _ => none

/-- The children of a stored atom. -/
def Atom.outgoing (a : Atom) : List AtomId := a.form.outgoing

/-- Identifiers by key, each list in ascending order. -/
abbrev Index (κ : Type) := Table κ (List AtomId)

namespace Index

variable {κ : Type} [DecidableEq κ]

/-- The identifiers listed under a key. -/
def ids (ix : Index κ) (k : κ) : List AtomId := (ix.get? k).getD []

/-- Lists one more identifier under a key. -/
def push (ix : Index κ) (k : κ) (id : AtomId) : Index κ := ix.insert k (ix.ids k ++ [id])

/-- A push adds its identifier to the end of its own list only. -/
theorem ids_push (ix : Index κ) (k k' : κ) (id : AtomId) :
    (ix.push k id).ids k' = if k = k' then ix.ids k ++ [id] else ix.ids k' := by
  simp only [push, ids, Table.get?_insert]
  split <;> rfl

end Index

/-- Counts of what was done with a store. -/
structure Tally where
  atomsAdded : Nat
  truthUpdates : Nat
  lookups : Nat
deriving Repr, DecidableEq, Inhabited

/-- Atoms in ascending order, the next identifier, the four indexes and the counts. -/
structure Store where
  atoms : List Atom
  nextId : AtomId
  byName : Index String
  byKind : Index Kind
  incoming : Index AtomId
  byStructure : Index (LinkKind × List AtomId)
  tally : Tally
deriving Repr

/-- An operation on a store; what it stored before failing stays. -/
abbrev StoreM := ExceptT Error (StateM Store)

namespace Store

/-- The store without atoms. -/
def empty : Store := ⟨[], 1, .empty, .empty, .empty, .empty, ⟨0, 0, 0⟩⟩

instance : Inhabited Store := ⟨empty⟩

/-! ## Lookups -/

/-- The atom of an identifier. -/
def get? (s : Store) (id : AtomId) : Option Atom := s.atoms.find? fun a => a.id = id

/-- Whether an identifier is in the store. -/
def contains (s : Store) (id : AtomId) : Bool := (s.get? id).isSome

/-- The identifiers of all atoms, in ascending order. -/
def ids (s : Store) : List AtomId := s.atoms.map Atom.id

/-- The identifiers of the atoms of one kind. -/
def idsOf (s : Store) (k : Kind) : List AtomId := s.byKind.ids k

/-- The nodes of a name, of any kind. -/
def named (s : Store) (name : String) : List AtomId := s.byName.ids name

/-- Whether an atom is of a kind. -/
def hasKind (s : Store) (k : Kind) (id : AtomId) : Bool :=
  match s.get? id with
  | some a => a.kind = k
  | none => false

/-- The oldest node of a kind and name. -/
def findNode (s : Store) (k : NodeKind) (name : String) : Option AtomId :=
  (s.named name).find? (s.hasKind (.node k))

/-- The oldest link of a kind with exactly these children. -/
def findLink (s : Store) (k : LinkKind) (outgoing : List AtomId) : Option AtomId :=
  (s.byStructure.ids (k, outgoing)).head?

/-- The links that hold an atom. -/
def linksOver (s : Store) (id : AtomId) : List AtomId := s.incoming.ids id

/-- The number of atoms. -/
def size (s : Store) : Nat := s.atoms.length

/-- The number of nodes. -/
def nodeCount (s : Store) : Nat := s.atoms.countP fun a => a.form.isNode

/-! ## Changes -/

/-- Adds an atom to the list and to every index. -/
def index (s : Store) (a : Atom) : Store :=
  let s := { s with atoms := s.atoms ++ [a], byKind := s.byKind.push a.kind a.id }
  match a.form with
  | .node _ name => { s with byName := s.byName.push name a.id }
  | .link k out =>
    { s with
      incoming := (distinct out).foldl (fun ix ref => ix.push ref a.id) s.incoming
      byStructure := s.byStructure.push (k, out) a.id }

/-- Stores an atom under the next identifier. -/
def insert (form : Form) (truth : Truth) (written : List Value) : StoreM AtomId := do
  let s ← get
  let id := s.nextId
  let s := s.index ⟨id, form, truth, written⟩
  set { s with nextId := id + 1, tally := { s.tally with atomsAdded := s.tally.atomsAdded + 1 } }
  return id

/-- Adds a node. -/
def addNode (k : NodeKind) (name : String) (truth : Truth) : StoreM AtomId :=
  if name.isEmpty then throw (.missingName k) else insert (.node k name) truth []

/-- Adds a link over atoms that are already stored and were referred to in some written form. -/
def addLinkWritten (k : LinkKind) (outgoing : List AtomId) (written : List Value)
    (truth : Truth) : StoreM AtomId := do
  if !k.accepts outgoing.length then
    throw (.outgoingCount (.link k) (.ofNat outgoing.length))
  let s ← get
  match outgoing.find? fun ref => !s.contains ref with
  | some ref => throw (.dangling (.int (Int.ofNat ref)))
  | none => insert (.link k outgoing) truth written

/-- Adds a link over atoms that are already stored. -/
def addLink (k : LinkKind) (outgoing : List AtomId) (truth : Truth) : StoreM AtomId :=
  addLinkWritten k outgoing (outgoing.map fun id => .int (Int.ofNat id)) truth

/-- Replaces the truth value of an atom. -/
def retruth (s : Store) (id : AtomId) (t : Truth) : Store :=
  { s with
    atoms := s.atoms.map fun a => if a.id = id then { a with truth := t } else a
    tally := { s.tally with truthUpdates := s.tally.truthUpdates + 1 } }

/-- Replaces the truth value of an atom and returns the previous one. -/
def setTruth (id : AtomId) (t : Truth) : StoreM Truth := do
  let s ← get
  match s.get? id with
  | none => throw (.notFound (.int (Int.ofNat id)))
  | some a =>
    set (s.retruth id t)
    return a.truth

mutual

/-- The atom of a ground tree, adding what is missing. Only a new root takes the truth value. A
named link and a node without a name or with children cannot be added. -/
def ensure (truth : Option Truth) : Pattern → StoreM AtomId
  | .var v => throw (.pattern (.notGround v))
  | .node (.node k) name => do
    let s ← get
    match s.findNode k name with
    | some id => return id
    | none => addNode k name (truth.getD .default)
  | .node (.link k) _ =>
    if k.accepts 0 then throw (.unexpectedName k) else throw (.outgoingCount (.link k) (.ofNat 0))
  | .link (.link k) cs => do
    let children ← ensureList cs
    let s ← get
    match s.findLink k children with
    | some id => return id
    | none => addLink k children (truth.getD .default)
  | .link (.node k) cs => do
    let children ← ensureList cs
    if children.isEmpty then throw (.missingName k)
    else throw (.outgoingCount (.node k) (.ofNat children.length))

/-- The atoms of a list of ground trees. -/
def ensureList : List Pattern → StoreM (List AtomId)
  | [] => return []
  | c :: cs => do
    let id ← ensure none c
    let ids ← ensureList cs
    return id :: ids

end

/-- Gives the root of an asserted tree its truth value, unless it has it already. -/
def settle (root : AtomId) (truth : Truth) : StoreM Unit := do
  let s ← get
  match s.get? root with
  | none => return ()
  | some a => if a.truth == truth then return () else discard (setTruth root truth)

end Store

end Credence
