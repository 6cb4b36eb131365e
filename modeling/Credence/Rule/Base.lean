import Credence.Document.Agreement
import Credence.Ranking.Sort
import Credence.Rule.Spec
import Credence.Unification
/-!
# Rule bases

A rule base keeps rules in the order in which they were added. Reasoning goes
through the enabled ones by descending priority, and among equals in that order.
-/

namespace Credence

/-- Rules in order of addition. -/
structure RuleBase where
  rules : List Rule
deriving Repr, Inhabited

namespace RuleBase

/-- The base without rules. -/
def empty : RuleBase := ⟨[]⟩

/-- Adds a rule at the end. -/
def add (b : RuleBase) (r : Rule) : RuleBase := ⟨b.rules ++ [r]⟩

/-- The enabled rules by descending priority, equals in order of addition. A priority that is no
number leaves those around it uncompared. -/
def inOrder (b : RuleBase) : List Rule :=
  let rules := b.rules.filter Rule.enabled
  if rules.all fun r => r.rank.agrees r.rank then
    rules.mergeSort fun r r' => !r.rank.isLess r'.rank
  else Ranking.sort (fun r r' => r'.rank.isLess r.rank) rules

/-- The base of a list of documents, each read as a rule. -/
def ofValues (vs : List Value) : Except Error RuleBase := (vs.mapM Rule.ofValue).map .mk

/-- The base of a list of written rules. -/
def ofSpecs (ss : List RuleSpec) : Except Error RuleBase := (ss.mapM Rule.ofSpec).map .mk

/-- The base of a document with a list `rules`, which may be missing. -/
def ofValue (v : Value) : Except Error RuleBase :=
  ofValues ((v.field? "rules").getD .null).elements

/-- The document of a base. -/
def toValue (b : RuleBase) : Except Error Value :=
  (b.rules.mapM Rule.toSpec).map fun ss => .record [("rules", .list (ss.map RuleSpec.toValue))]

/-- The rules, numbered in order from `i` and renamed by their number, whose conclusion unifies
with the goal. -/
def rulesFrom (goal : Pattern) (tag : String) : Nat → List Rule → List Rule
  | _, [] => []
  | i, r :: rest =>
    let r := r.renamed ("_" ++ tag ++ toString i)
    match Unification.unify goal r.conclusion .empty with
    | some _ => r :: rulesFrom goal tag (i + 1) rest
    | none => rulesFrom goal tag (i + 1) rest

/-- The rules whose conclusion unifies with a goal, their variables renamed by a tag and a
number. -/
def rulesFor (b : RuleBase) (goal : Pattern) (tag : String) : List Rule :=
  rulesFrom goal tag 0 b.inOrder

/-- The enabled rules as hypotheses. -/
def hypotheses (b : RuleBase) : List Hypothesis := b.inOrder.map Rule.hypothesis

end RuleBase

/-- A rule that is being put together. -/
structure RuleDraft where
  name : Value
  premises : List Pattern
  conclusion : Option Pattern
  reliability : Value
  description : Value
  priority : Value
deriving Repr

namespace RuleDraft

/-- A draft that has only a name. -/
def start (name : Value) : RuleDraft := ⟨name, [], none, .float 1.0, .null, .int 0⟩

/-- Adds a premise. -/
def premise (d : RuleDraft) (p : Pattern) : RuleDraft := { d with premises := d.premises ++ [p] }

/-- Sets the conclusion. -/
def concluding (d : RuleDraft) (p : Pattern) : RuleDraft := { d with conclusion := some p }

/-- The rule of a finished draft, whose reliability has to be a number. -/
def finish (d : RuleDraft) : Except Error Rule :=
  match d.conclusion with
  | none => .error (.rule (.noConclusion d.name))
  | some c =>
    match Scalar.ofValue? d.reliability with
    | none => .error (.rule (.reliability d.name d.reliability))
    | some x => (Rule.mk d.name d.premises c x d.description d.priority true).check

end RuleDraft

end Credence
