import Credence.Document.Scalar
import Credence.Error
import Credence.Pattern.Parser
import Credence.Pattern.Printer
import Credence.Substitution
/-!
# Rules and hypotheses

A rule derives its conclusion from its premises; every variable of the conclusion
occurs in a premise, so a solution of the premises grounds the conclusion. Its
reliability scales the confidence of what it derives. Its name, description and
priority may be any documents, which only its written form restricts.

A hypothesis predicts a consequence. A rule is a hypothesis as well: its premises
would explain its conclusion.
-/

namespace Credence

/-- A rule over patterns. -/
structure Rule where
  name : Value
  premises : List Pattern
  conclusion : Pattern
  reliability : Scalar
  description : Value
  priority : Value
  enabled : Bool
deriving Repr, Inhabited

/-- A candidate explanation. -/
structure Hypothesis where
  name : Value
  statements : List Pattern
  predicts : Pattern
  prior : Scalar
  requires : List Pattern
deriving Repr, Inhabited

namespace Rule

/-- The variables of the conclusion that no premise binds. -/
def unbound (premises : List Pattern) (conclusion : Pattern) : List String :=
  conclusion.vars.filter fun v => !(Pattern.occurrencesList premises).contains v

/-- The priority as a number, zero if it is none. -/
def rank (r : Rule) : Scalar := (Scalar.ofValue? r.priority).getD (.whole 0)

/-- Refuses a rule without premises, with a reliability outside 0 to 1, or with a conclusion that
its premises do not bind. -/
def check (r : Rule) : Except Error Rule :=
  if r.premises.isEmpty then .error (.rule (.noPremises r.name))
  else if !r.reliability.isUnit then .error (.rule (.reliability r.name r.reliability.toValue))
  else
    let vs := unbound r.premises r.conclusion
    if vs.isEmpty then .ok r else .error (.rule (.unbound r.name vs))

/-- The rule with a suffix appended to its variables. -/
def renamed (r : Rule) (suffix : String) : Rule :=
  let θ := Substitution.suffixing (r.conclusion :: r.premises) suffix
  { r with premises := r.premises.map θ.apply, conclusion := θ.apply r.conclusion }

/-- The rule as a clause. -/
def toText (r : Rule) : String :=
  r.conclusion.toText ++ " :- " ++ ", ".intercalate (r.premises.map Pattern.toText)

/-- The premises of a rule as an explanation of its conclusion. -/
def hypothesis (r : Rule) : Hypothesis := ⟨r.name, r.premises, r.conclusion, r.reliability, []⟩

end Rule

/-- The hypothesis with a suffix appended to its variables. -/
def Hypothesis.renamed (h : Hypothesis) (suffix : String) : Hypothesis :=
  let θ := Substitution.suffixing (h.predicts :: h.statements ++ h.requires) suffix
  { h with
    predicts := θ.apply h.predicts
    statements := h.statements.map θ.apply
    requires := h.requires.map θ.apply }

end Credence
