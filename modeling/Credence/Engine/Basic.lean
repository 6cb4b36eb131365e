import Credence.Deadline
import Credence.Params
import Credence.Rule.Base
/-!
# Engines

An engine is what reasoning starts from when a request does not say otherwise: rules,
hypotheses and parameters, and the clock that deadlines read. It holds no atoms; a
store is given to each question.
-/

namespace Credence

/-- Rules, hypotheses and parameters to fall back on. -/
structure Engine where
  rules : RuleBase
  hypotheses : List Hypothesis
  params : Params
  clock : Clock

namespace Engine

/-- The engine of three documents: rules, hypotheses and parameters. -/
def ofValues (rules hypotheses params : Value) (clock : Clock) : Except Error Engine := do
  let rules ← RuleBase.ofValues rules.elements
  let hypotheses ← hypotheses.elements.mapM Hypothesis.ofValue
  let params ← Params.ofValue params
  return ⟨rules, hypotheses, params, clock⟩

/-- The engine of a configuration. -/
def ofConfig (c : Config) (clock : Clock) : Except Error Engine := do
  let rules ← RuleBase.ofSpecs c.rules
  let hypotheses ← c.hypotheses.mapM Hypothesis.ofSpec
  return ⟨rules, hypotheses, c.params, clock⟩

/-- The rules of a request, or the engine's. -/
def rulesOr (e : Engine) : Value → Except Error RuleBase
  | .null => .ok e.rules
  | v => RuleBase.ofValues v.elements

/-- The parameters of a request, or the engine's. -/
def paramsOr (e : Engine) : Value → Except Error Params
  | .null => .ok e.params
  | v => Params.ofValue v

end Engine

end Credence
