import Credence.Pattern.Printer
/-!
# Proof trees

A proof of a goal is a stored fact or a rule applied to proofs of its premises. Each
node carries the goal it proves, its confidence and its depth below the root.
-/

namespace Credence

/-- What a node of a proof rests on. -/
inductive Source where
  | fact
  | rule (name : Value)
deriving Repr

/-- The name of a source. -/
def Source.toText : Source → String
  | fact => "fact"
  | rule name => "rule:" ++ name.display

/-- A proof tree. -/
inductive Proof where
  | node (goal : Pattern) (confidence : Float) (depth : Nat) (source : Source)
      (children : List Proof)
deriving Repr

namespace Proof

/-- The goal at the root. -/
def goal : Proof → Pattern
  | node g _ _ _ _ => g

/-- The confidence of the root. -/
def confidence : Proof → Float
  | node _ c _ _ _ => c

/-- The depth of the root. -/
def depth : Proof → Nat
  | node _ _ d _ _ => d

/-- What the root rests on. -/
def source : Proof → Source
  | node _ _ _ s _ => s

/-- The proofs below the root. -/
def children : Proof → List Proof
  | node _ _ _ _ cs => cs

mutual

/-- The nodes of a proof, each before those below it. -/
def preorder : Proof → List Proof
  | node g c d s cs => node g c d s cs :: preorderList cs

/-- The nodes of several proofs, each before those below it. -/
def preorderList : List Proof → List Proof
  | [] => []
  | p :: ps => preorder p ++ preorderList ps

end

mutual

/-- The nodes of a proof, each after those below it. -/
def postorder : Proof → List Proof
  | node g c d s cs => postorderList cs ++ [node g c d s cs]

/-- The nodes of several proofs, each after those below it. -/
def postorderList : List Proof → List Proof
  | [] => []
  | p :: ps => postorder p ++ postorderList ps

end

/-- The least of some confidences. -/
def least : List Float → Float
  | [] => 0.0
  | c :: cs => cs.foldl min c

/-- The least confidence in a proof. -/
def weakest (p : Proof) : Float := least (p.preorder.map confidence)

/-- How a node is proven. -/
def describe (p : Proof) : String :=
  match p.source with
  | .fact => "Matched stored fact"
  | s => "Proven by " ++ s.toText ++ " from " ++
    "; ".intercalate (p.children.map fun c => c.goal.toText)

end Proof

end Credence
