import Credence.Store.Render
import Credence.Substitution
/-!
# Matching patterns against atoms

A pattern matches an atom when its nodes agree in kind and name, its links in kind
and number of children, slot by slot, and every variable stands for one atom
throughout. A node counts as an atom without children, so a link pattern of its kind
and without children matches it. Matches extend bindings that are already there.

The atoms worth trying come from the index that the shape of the pattern offers:
a bound variable, a name, the links over the first child that is known, or a kind.
They are tried in ascending order.
-/

namespace Credence

/-- Atoms bound to variables. -/
abbrev Bindings := Table String AtomId

/-- One match: the bindings and the atom of the whole pattern. -/
structure Match where
  bindings : Bindings
  atomId : AtomId
deriving Repr, DecidableEq

/-- Puts a number into an ascending list that does not hold it yet. -/
def insertAscending (n : Nat) : List Nat → List Nat
  | [] => [n]
  | m :: rest =>
    if n < m then n :: m :: rest
    else if n = m then m :: rest
    else m :: insertAscending n rest

/-- The numbers of a list in ascending order, each once. -/
def ascending (ns : List Nat) : List Nat := ns.foldr insertAscending []

namespace Store

mutual

/-- Extends bindings so that a pattern describes an atom. -/
def matchAtom (s : Store) : Pattern → AtomId → Bindings → Option Bindings
  | .var v, id, b =>
    match b.get? v with
    | some bound => if bound = id then some b else none
    | none => some (b.insert v id)
  | .node k name, id, b =>
    match s.get? id with
    | some a => if a.kind = k ∧ a.name? = some name then some b else none
    | none => none
  | .link k cs, id, b =>
    match s.get? id with
    | some a =>
      if a.kind = k ∧ a.outgoing.length = cs.length then s.matchSlots cs a.outgoing b else none
    | none => none

/-- Extends bindings so that patterns describe the atoms of the same places. -/
def matchSlots (s : Store) : List Pattern → List AtomId → Bindings → Option Bindings
  | [], _, b => some b
  | _ :: _, [], _ => none
  | c :: cs, id :: ids, b =>
    match s.matchAtom c id b with
    | some b => s.matchSlots cs ids b
    | none => none

end

/-- The atoms that a child can stand for, if that is known without looking at links. -/
def anchors (s : Store) (b : Bindings) : Pattern → Option (List AtomId)
  | .var v => (b.get? v).map fun id => [id]
  | .node k name => some ((s.named name).filter (s.hasKind k))
  | .link _ _ => none

/-- The links of a kind over any of the given atoms. -/
def linksOverAny (s : Store) (k : Kind) (below : List AtomId) : Except Error (List AtomId) := do
  let found ← below.mapM fun id =>
    if s.contains id then .ok ((s.linksOver id).filter (s.hasKind k))
    else .error (.notFound (.int (Int.ofNat id)))
  return ascending found.flatten

/-- The atoms worth trying for a pattern, in ascending order. -/
def candidates (s : Store) (p : Pattern) (b : Bindings) : Except Error (List AtomId) :=
  match p with
  | .var v =>
    match b.get? v with
    | some id => .ok (if s.contains id then [id] else [])
    | none => .ok s.ids
  | .node _ name => .ok (s.named name)
  | .link k cs =>
    match cs.findSome? (s.anchors b) with
    | some below => s.linksOverAny k below
    | none => .ok (s.idsOf k)

/-- The matches of a pattern that extend the bindings, in ascending order of their atoms. -/
def matchesFrom (s : Store) (p : Pattern) (b : Bindings) : Except Error (List Match) :=
  (s.candidates p b).map fun ids =>
    ids.filterMap fun id => (s.matchAtom p id b).map fun b => ⟨b, id⟩

/-- The matches of a pattern. -/
def matchesOf (s : Store) (p : Pattern) : Except Error (List Match) := s.matchesFrom p .empty

/-- The oldest atom that matches a pattern. -/
def lookup (s : Store) (p : Pattern) : Except Error (Option AtomId) :=
  (s.matchesOf p).map fun ms => ms.head?.map Match.atomId

/-- The trees of the bound atoms. -/
def bindingTrees (s : Store) (b : Bindings) : Except Error Substitution :=
  (b.entries.mapM fun e => (s.toPattern e.2).map fun p => (e.1, p)).map fun es => ⟨es⟩

/-- Replaces bound variables by the trees of their atoms. -/
def instantiate (s : Store) (p : Pattern) (b : Bindings) : Except Error Pattern :=
  (s.bindingTrees b).map fun θ => θ.apply p

/-! ## Counting -/

/-- How often the name index is asked for the candidates of a pattern. -/
def lookupsFor (p : Pattern) (b : Bindings) : Nat :=
  match p with
  | .var _ => 0
  | .node _ _ => 1
  | .link _ cs =>
    let known : Pattern → Bool
      | .var v => (b.get? v).isSome
      | .node _ _ => true
      | .link _ _ => false
    match cs.find? known with
    | some (.node _ _) => 1
    | _ => 0

end Store

/-- Questions put to a store: an answer or an error, and a count of name lookups. -/
abbrev Reading := ExceptT Error (StateM Nat)

namespace Reading

/-- Counts name lookups. -/
def count (n : Nat) : Reading Unit := modify (· + n)

/-- The matches that extend bindings, with their lookups counted. -/
def matchesFrom (s : Store) (p : Pattern) (b : Bindings) : Reading (List Match) := do
  count (Store.lookupsFor p b)
  s.matchesFrom p b

/-- The limit that a number sets, which must not be negative: so many results that one less would
be below the number. -/
def limitOf : Option Scalar → Except Error (Option Nat)
  | none => .ok none
  | some a =>
    if a.isLess (.whole 0) then .error .negativeLimit else .ok (a.ceil?.map Int.toNat)

/-- At most `limit` matches of a pattern, all of them without a limit. -/
def find (s : Store) (p : Pattern) (limit : Option Nat) : Reading (List Match) :=
  match limit with
  | some 0 => return []
  | some n => do
    let ms ← matchesFrom s p .empty
    return ms.take n
  | none => matchesFrom s p .empty

/-- The oldest atom that matches a pattern. -/
def lookup (s : Store) (p : Pattern) : Reading (Option AtomId) := do
  let ms ← matchesFrom s p .empty
  return ms.head?.map Match.atomId

/-- Answers a question and adds its lookups to the counts of the store. -/
def run {α : Type} (question : Store → Reading α) : StoreM α := do
  let s ← get
  let (answer, n) := Id.run (StateT.run (ExceptT.run (question s)) 0)
  set { s with tally := { s.tally with lookups := s.tally.lookups + n } }
  answer

end Reading

end Credence
