import Credence.Deadline
import Credence.Inference.Outcome
import Credence.Params
import Credence.Rule.Base
import Credence.Store.Assert
import Credence.Store.Conjunction
/-!
# Forward chaining

Rules are applied to a private copy of the premises until an iteration brings
nothing new. Within an iteration every rule sees the facts as they stood at its
start; the conclusions accepted in it are stored at its end.

A firing takes the least confidence of the atoms it consumed, scaled by the
reliability of its rule. It is passed over if the facts, the conclusions of the same
iteration or an earlier rejection already carry its statement with at least that
confidence.
-/

namespace Credence.Forward

/-- One firing of a rule. -/
structure Firing where
  number : Nat
  iteration : Nat
  rule : Value
  premises : List String
  conclusion : String
  confidence : Float
  accepted : Bool
deriving Repr

/-- An accepted statement. -/
structure Conclusion where
  statement : String
  truth : Truth
  rule : Value
  premises : List String
  step : Nat
deriving Repr

/-- The findings of a run. -/
structure Result where
  outcome : Outcome
  premises : List String
  steps : List Firing
  conclusions : List Conclusion
deriving Repr

/-- What an iteration collects while its facts stay fixed. -/
structure Round where
  steps : List Firing
  pending : Table String (Pattern × Conclusion)
  rejected : Table String Float

/-- What a run carries from one iteration to the next. -/
structure Run where
  facts : Store
  steps : List Firing
  conclusions : List Conclusion
  rejected : Table String Float

/-- The truth of a firing: the conjunction of what it consumed, scaled by reliability, which a
truth value cannot stand for. -/
def fireTruth (r : Rule) (consumed : List Truth) (useUncertainty : Bool) : Except Error Truth :=
  let combined := Truth.conjoin consumed
  let part (label : String) := (Truth.unit label r.reliability.toValue).mapError Error.truth
  if useUncertainty then (part "reliability").map combined.discount
  else (part "confidence").map fun c => ⟨combined.strength, c⟩

/-- Whether the facts hold a conclusion with at least this confidence. -/
def isKnown (facts : Store) (conclusion : Pattern) (truth : Truth) : Except Error Bool := do
  let found ← facts.lookup conclusion
  return match found.bind facts.get? with
    | some a => a.truth.confidence ≥ truth.confidence
    | none => false

/-- Whether the conclusions of the same iteration hold a statement with at least this
confidence. -/
def Round.isPending (round : Round) (statement : String) (truth : Truth) : Bool :=
  match round.pending.get? statement with
  | some (_, c) => c.truth.confidence ≥ truth.confidence
  | none => false

/-- Whether a statement was rejected before with at least this confidence. -/
def Round.isRejected (round : Round) (statement : String) (truth : Truth) : Bool :=
  (round.rejected.get? statement).getD (-1.0) ≥ truth.confidence

/-- Records a firing as a step, and as a conclusion if its confidence suffices. -/
def Round.record (round : Round) (params : Params) (iteration : Nat) (r : Rule)
    (premises : List String) (conclusion : Pattern) (truth : Truth) : Round :=
  let statement := conclusion.toText
  let number := round.steps.length + 1
  let accepted := truth.confidence ≥ params.threshold
  let steps := round.steps ++
    [⟨number, iteration, r.name, premises, statement, truth.confidence, accepted⟩]
  if accepted then
    { round with
      steps
      pending := round.pending.insert statement
        (conclusion, ⟨statement, truth, r.name, premises, number⟩) }
  else { round with steps, rejected := round.rejected.insert statement truth.confidence }

/-- Fires a rule at one solution of its premises. -/
def fire (facts : Store) (params : Params) (iteration : Nat) (r : Rule) (round : Round)
    (sol : Solution) : Except Error Round := do
  let conclusion ← facts.instantiate r.conclusion sol.bindings
  if !conclusion.isGround then return round
  let consumed := sol.atomIds.filterMap facts.get?
  let truth ← fireTruth r (consumed.map Atom.truth) params.useUncertainty
  let known ← isKnown facts conclusion truth
  let statement := conclusion.toText
  if known || round.isPending statement truth || round.isRejected statement truth then
    return round
  let premises ← facts.toTexts sol.atomIds
  return round.record params iteration r premises conclusion truth

/-- Fires every rule at every solution of its premises. -/
def fireAll (facts : Store) (rules : List Rule) (params : Params) (iteration : Nat)
    (round : Round) : Except Error Round :=
  rules.foldlM (fun round r => do
    let sols ← facts.solutions r.premises .empty
    sols.foldlM (fire facts params iteration r) round) round

/-- Stores pending conclusions while there is room for more; the flag tells that some were left. -/
def accept (maxResults : Nat) : List (Pattern × Conclusion) → Store → List Conclusion →
    Except Error (Store × List Conclusion × Bool)
  | [], facts, cs => .ok (facts, cs, false)
  | (p, c) :: rest, facts, cs =>
    if cs.length ≥ maxResults then .ok (facts, cs, true)
    else
      match (Store.assert p (some c.truth)).run.run facts with
      | (.ok _, facts) => accept maxResults rest facts (cs ++ [c])
      | (.error e, _) => .error e

/-- Runs at most `more` iterations, the next one numbered `iteration`. -/
def iterate (rules : List Rule) (params : Params) (deadline : Deadline) :
    Nat → Nat → Nat → Run → Except Error (Outcome × Run)
  | 0, iteration, _, run => .ok (⟨true, false, iteration - 1⟩, run)
  | more + 1, iteration, polls, run =>
    match deadline.poll polls with
    | (true, _) => .ok (⟨false, true, iteration - 1⟩, run)
    | (false, polls) => do
      let round ← fireAll run.facts rules params iteration ⟨run.steps, .empty, run.rejected⟩
      let run := { run with steps := round.steps, rejected := round.rejected }
      if round.pending.entries.isEmpty then return (⟨false, false, iteration⟩, run)
      let (facts, conclusions, truncated) ←
        accept params.maxResults round.pending.values run.facts run.conclusions
      let run := { run with facts, conclusions }
      if truncated then return (⟨true, false, iteration⟩, run)
      iterate rules params deadline more (iteration + 1) polls run

/-- Chains forward from some atoms of a store, or from all of them. -/
def chain (s : Store) (rules : List Rule) (premises : Option (List AtomId)) (params : Params)
    (clock : Clock) : Except Error Result := do
  let facts := match premises with
    | none => s.snapshot
    | some ids => s.subset ids
  let texts ← s.toTexts (premises.getD s.ids)
  let (outcome, run) ← iterate rules params ⟨params.timeout, clock⟩ params.maxSteps 1 0
    ⟨facts, [], [], .empty⟩
  return ⟨outcome, texts, run.steps, run.conclusions⟩

/-- The record of a firing. -/
def Firing.toValue (f : Firing) : Value :=
  .record [("stepNumber", .int (Int.ofNat f.number)), ("iteration", .int (Int.ofNat f.iteration)),
    ("rule", f.rule), ("premise", .text ("; ".intercalate f.premises)),
    ("premises", Value.texts f.premises), ("conclusion", .text f.conclusion),
    ("confidence", .float f.confidence), ("accepted", .bool f.accepted)]

/-- The record of a conclusion. -/
def Conclusion.toValue (c : Conclusion) : Value :=
  .record [("statement", .text c.statement), ("confidence", .float c.truth.confidence),
    ("strength", .float c.truth.strength),
    ("derivation",
      .text ("Derived from " ++ "; ".intercalate c.premises ++ " using " ++ c.rule.display)),
    ("rule", c.rule), ("step", .int (Int.ofNat c.step))]

/-- The record of a result. -/
def Result.toValue (r : Result) : Value :=
  r.outcome.record "forwardChaining"
    [("inputKnowledge", Value.texts r.premises),
      ("steps", .list (r.steps.map Firing.toValue)),
      ("conclusions", .list (r.conclusions.map Conclusion.toValue)),
      ("totalSteps", .int (Int.ofNat r.steps.length)),
      ("validConclusions", .int (Int.ofNat r.conclusions.length))]

end Credence.Forward
