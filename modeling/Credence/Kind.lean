/-!
# Kinds of atoms

Nodes carry a name; links carry an ordered list of other atoms, whose length their
kind restricts. Each kind is written by its name or by its name with the family
appended (`ConceptNode`, `InheritanceLink`); the bare word `Link` means a list.
-/

namespace Credence

/-- The kinds of nodes. -/
inductive NodeKind where
  | concept
  | predicate
  | variable
deriving Repr, DecidableEq, Inhabited

/-- The kinds of links. -/
inductive LinkKind where
  | inheritance
  | similarity
  | evaluation
  | list
deriving Repr, DecidableEq, Inhabited

/-- The kinds of atoms. -/
inductive Kind where
  | node (k : NodeKind)
  | link (k : LinkKind)
deriving Repr, DecidableEq, Inhabited

/-- The name of a kind of nodes. -/
def NodeKind.name : NodeKind → String
  | .concept => "Concept"
  | .predicate => "Predicate"
  | .variable => "Variable"

/-- The name of a kind of links. -/
def LinkKind.name : LinkKind → String
  | .inheritance => "Inheritance"
  | .similarity => "Similarity"
  | .evaluation => "Evaluation"
  | .list => "List"

/-- The name of a kind. -/
def Kind.name : Kind → String
  | .node k => k.name
  | .link k => k.name

/-- Whether a kind is one of links. -/
def Kind.isLink : Kind → Bool
  | .node _ => false
  | .link _ => true

/-- The least number of children a link holds. -/
def LinkKind.least : LinkKind → Nat
  | .inheritance => 2
  | .similarity => 2
  | .evaluation => 2
  | .list => 0

/-- The greatest number of children a link holds, if there is one. -/
def LinkKind.most : LinkKind → Option Nat
  | .inheritance => some 2
  | .similarity => some 2
  | .evaluation => none
  | .list => none

/-- Whether a link of this kind may hold `n` children. -/
def LinkKind.accepts (k : LinkKind) (n : Nat) : Bool :=
  decide (k.least ≤ n) && match k.most with
    | none => true
    | some high => decide (n ≤ high)

/-- How messages describe the number of children. -/
def LinkKind.describeArity (k : LinkKind) : String :=
  match k.most with
  | none => if k.least = 0 then "any number of" else "at least " ++ toString k.least
  | some high =>
    if k.least = high then toString high else toString k.least ++ " to " ++ toString high

/-- Every kind of nodes. -/
def NodeKind.all : List NodeKind := [.concept, .predicate, .variable]

/-- Every kind of links. -/
def LinkKind.all : List LinkKind := [.inheritance, .similarity, .evaluation, .list]

/-- The words that name kinds. -/
def Kind.keywords : List (String × Kind) :=
  NodeKind.all.flatMap (fun k => [(k.name, .node k), (k.name ++ "Node", .node k)]) ++
    LinkKind.all.flatMap (fun k => [(k.name, .link k), (k.name ++ "Link", .link k)]) ++
    [("Link", .link .list)]

/-- The kind that a word names. -/
def Kind.ofKeyword? (word : String) : Option Kind :=
  (Kind.keywords.find? fun p => p.1 = word).map Prod.snd

theorem Kind.ofKeyword?_name (k : Kind) : Kind.ofKeyword? k.name = some k := by
  rcases k with k | k <;> cases k <;> decide

end Credence
