import Credence.Error
import Credence.Text.Blank
/-!
# Kinds of reasoning

There are six kinds of reasoning. Each has a name in requests, another one with
underscores, and all but the two kinds of chaining may be called reasoning as well.
-/

namespace Credence

/-- A kind of reasoning. -/
inductive Strategy where
  | forwardChaining
  | backwardChaining
  | abductive
  | analogical
  | probabilistic
  | temporal
deriving Repr, DecidableEq

namespace Strategy

/-- The kinds of reasoning. -/
def all : List Strategy :=
  [forwardChaining, backwardChaining, abductive, analogical, probabilistic, temporal]

/-- The name in requests. -/
def name : Strategy → String
  | forwardChaining => "forwardChaining"
  | backwardChaining => "backwardChaining"
  | abductive => "abductive"
  | analogical => "analogical"
  | probabilistic => "probabilistic"
  | temporal => "temporal"

/-- The names that a kind of reasoning answers to. -/
def names : Strategy → List String
  | forwardChaining => ["forwardChaining", "forward_chaining"]
  | backwardChaining => ["backwardChaining", "backward_chaining"]
  | s => [s.name, s.name ++ "Reasoning", s.name ++ "_reasoning"]

/-- The kind of reasoning that a text names. -/
def ofName? (s : String) : Option Strategy := all.find? fun st => st.names.contains (Text.trim s)

/-- The kind of reasoning that a document names. -/
def ofValue (v : Value) : Except Error Strategy :=
  match v with
  | .text s => match ofName? s with
    | some st => .ok st
    | none => .error (.unknownStrategy v)
  | _ => .error (.unknownStrategy v)

theorem ofName?_name (s : Strategy) : ofName? s.name = some s := by
  cases s <;> decide +kernel

end Strategy

end Credence
