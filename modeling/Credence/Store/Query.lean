import Credence.Store.Match
/-!
# Searching atoms by name

A search lists the nodes whose name holds a text, of one kind or of all. Without a
text it lists links as well.
-/

namespace Credence

/-- Whether one text stands somewhere inside another. -/
def isWithin (part : List Char) : List Char → Bool
  | [] => part.isEmpty
  | c :: cs => part.isPrefixOf (c :: cs) || isWithin part cs

/-- Whether an atom answers a search. -/
def Atom.answers (text : String) (a : Atom) : Bool :=
  match a.form with
  | .node _ name => isWithin text.toList name.toList
  | .link _ _ => text.isEmpty

namespace Reading

/-- At most `limit` atoms that answer a search, all of them without a limit. -/
def query (s : Store) (text : String) (kind : Option Kind) (limit : Option Nat) :
    Reading (List Atom) := do
  count 1
  let ids := match kind with
    | none => s.ids
    | some k => s.idsOf k
  let found := (ids.filterMap s.get?).filter (Atom.answers text)
  return match limit with
    | some n => found.take n
    | none => found

/-- The nodes of a name. -/
def named (s : Store) (name : String) : Reading (List AtomId) := do
  count 1
  return s.named name

end Reading

end Credence
