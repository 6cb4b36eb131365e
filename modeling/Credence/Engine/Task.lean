import Credence.Engine.Basic
import Credence.Inference.Abduction
import Credence.Inference.Analogy
import Credence.Inference.Backward
import Credence.Inference.Forward
import Credence.Inference.Propagation
import Credence.Inference.Temporal
import Credence.Pattern.Source
import Credence.Strategy
/-!
# Tasks of reasoning

A task is a question together with the parameters it is answered under. Tasks are
built from documents before any atom is looked at, either one by one or from a named
strategy with its inputs; `Task.perform` answers them against a store.

Answers never change the atoms of the store.
-/

namespace Credence

/-- A question of one of the six kinds. -/
inductive Question where
  | forward (premises : Option (List Value)) (rules : RuleBase)
  | backward (goal : Pattern.Source) (rules : RuleBase)
  | abduction (observation : Pattern.Source) (candidates : List Abduction.Candidate)
  | analogy (source target : List Value) (floor : Float)
  | propagation (graph : List Propagation.Fact)
  | temporal (facts : List Temporal.Fact) (claims : List Temporal.Claim)
      (window : Option String) (reference : Option Instant)

/-- A question and its parameters. -/
structure Task where
  question : Question
  params : Params

/-- The least similarity of a mapping where none is given. -/
def similarityFloor : Float := 0.5

/-- Reads a least similarity, which has to lie between 0 and 1. -/
def floorOf (v : Value) : Except Error Float :=
  let check (x : Float) : Except Error Float :=
    if inUnit x then .ok x else .error (.similarityFloor v)
  match v with
  | .float x => check x
  | .bool b => check (if b then 1.0 else 0.0)
  | .int n => match Number.ofInt? n with
    | some x => check x
    | none => .error (.similarityFloor v)
  | _ => .error (.similarityFloor v)

namespace Engine

/-! ## One kind at a time -/

/-- The task of chaining forward. -/
def forward (e : Engine) (premises : Option (List Value)) (rules params : Value) :
    Except Error Task := do
  let rules ← e.rulesOr rules
  let params ← e.paramsOr params
  return ⟨.forward premises rules, params⟩

/-- The task of chaining backward. -/
def backward (e : Engine) (goal : Pattern.Source) (rules params : Value) : Except Error Task := do
  let rules ← e.rulesOr rules
  let params ← e.paramsOr params
  return ⟨.backward goal rules, params⟩

/-- The hypotheses to try: those given, or the engine's. -/
def candidatesOr (e : Engine) : Option (List Value) → List Abduction.Candidate
  | none => e.hypotheses.map .ready
  | some vs => vs.map .written

/-- The task of explaining an observation; rules are hypotheses too if `useRules` says so. -/
def abduce (e : Engine) (observation : Pattern.Source) (hypotheses : Option (List Value))
    (useRules : Bool) (rules params : Value) : Except Error Task := do
  let more ← if useRules then do pure (← e.rulesOr rules).hypotheses else pure []
  let params ← e.paramsOr params
  return ⟨.abduction observation (e.candidatesOr hypotheses ++ more.map .ready), params⟩

/-- The task of mapping a domain onto another one. -/
def analogize (e : Engine) (source target : List Value) (floor : Option Value) (params : Value) :
    Except Error Task := do
  let params ← e.paramsOr params
  let floor ← match floor with
    | none => pure similarityFloor
    | some v => floorOf v
  return ⟨.analogy source target floor, params⟩

/-- The task of propagating probabilities. -/
def propagate (e : Engine) (facts : List Value) (params : Value) : Except Error Task := do
  let params ← e.paramsOr params
  let graph ← Propagation.graphOf facts
  return ⟨.propagation graph, params⟩

/-- The task of relating facts in time. -/
def temporal (e : Engine) (facts claims : List Value) (window : Option String)
    (reference : Option Instant) (params : Value) : Except Error Task := do
  let params ← e.paramsOr params
  let facts ← Temporal.factsOf facts
  let claims ← Temporal.claimsOf claims
  return ⟨.temporal facts claims window reference, params⟩

/-! ## By the name of a strategy -/

/-- Rules of a request that may be missing: a list, not yet read. -/
def rulesField : Fields Value :=
  Fields.withDefault ["rules"] .null fun v =>
    (Reader.optional (Reader.list Reader.any) v).map (Value.ofOption .list)

/-- Reads integers that may be missing. -/
def integers : Reader (List Value) := fun v => (Reader.list Reader.int v).map (·.map Value.int)

/-- Reads the inputs of chaining forward. -/
def forwardInputs : Reader (Option (List Value) × Value) := Fields.reader <|
  Prod.mk <$> Fields.withDefault ["premises"] none (Reader.optional integers) <*> rulesField

/-- Reads the inputs of chaining backward. -/
def backwardInputs : Reader (String × Value) := Fields.reader <|
  Prod.mk <$> Fields.required ["goal"] Reader.name <*> rulesField

/-- The inputs of explaining an observation. -/
structure AbductionInputs where
  observation : String
  hypotheses : Option (List Value)
  rules : Value
  useRules : Bool

/-- Reads the inputs of explaining an observation. -/
def abductionInputs : Reader AbductionInputs := Fields.reader <|
  AbductionInputs.mk <$> Fields.required ["observation"] Reader.name
    <*> Fields.withDefault ["hypotheses"] none (Reader.optional (Reader.list Reader.any))
    <*> rulesField
    <*> Fields.withDefault ["useRules", "use_rules"] true Reader.bool

/-- Reads the inputs of mapping a domain onto another one. -/
def analogyInputs : Reader (List Value × List Value × Float) := Fields.reader <|
  (fun source target floor => (source, target, floor))
    <$> Fields.required ["sourceDomain", "source"] integers
    <*> Fields.required ["targetDomain", "target"] integers
    <*> Fields.withDefault ["similarityFloor", "similarity_floor"] similarityFloor Reader.unit

/-- Reads the inputs of propagating probabilities. -/
def propagationInputs : Reader (List Propagation.Fact) := Fields.reader <|
  Fields.required ["facts"] (Reader.list Propagation.Fact.reader)

/-- Reads the inputs of relating facts in time. -/
def temporalInputs : Reader Question := Fields.reader <|
  Question.temporal <$> Fields.required ["facts"] (Reader.list Temporal.Fact.reader)
    <*> Fields.withDefault ["relations"] [] (Reader.list Temporal.Claim.reader)
    <*> Fields.withDefault ["timeWindow", "time_window"] none (Reader.optional Reader.text)
    <*> Fields.withDefault ["referenceTime", "reference_time"] none
      (Reader.optional Instant.reader)

/-- The question that a strategy reads from its inputs. -/
def question (e : Engine) (inputs : Value) : Strategy → Except Error Question
  | .forwardChaining => do
    let (premises, rules) ← fit "ForwardChainingInputs" forwardInputs inputs
    return .forward premises (← e.rulesOr rules)
  | .backwardChaining => do
    let (goal, rules) ← fit "BackwardChainingInputs" backwardInputs inputs
    return .backward (.text goal) (← e.rulesOr rules)
  | .abductive => do
    let i ← fit "AbductiveInputs" abductionInputs inputs
    let more ← if i.useRules then do pure (← e.rulesOr i.rules).hypotheses else pure []
    return .abduction (.text i.observation) (e.candidatesOr i.hypotheses ++ more.map .ready)
  | .analogical => do
    let (source, target, floor) ← fit "AnalogicalInputs" analogyInputs inputs
    return .analogy source target floor
  | .probabilistic => do
    let facts ← fit "ProbabilisticInputs" propagationInputs inputs
    return .propagation (← Propagation.checkGraph facts)
  | .temporal => fit "TemporalInputs" temporalInputs inputs

/-- The task of a named strategy with its parameters and inputs. -/
def task (e : Engine) (strategy params inputs : Value) : Except Error Task := do
  let strategy ← Strategy.ofValue strategy
  let params ← e.paramsOr params
  let inputs := match inputs with
    | .null => .record []
    | v => v
  return ⟨← e.question inputs strategy, params⟩

end Engine

/-! ## Answers -/

/-- Answers a task against a store. -/
def Task.perform (t : Task) (clock : Clock) (s : Store) : Reading Value :=
  match t.question with
  | .forward premises rules => do
    let ids ← (premises.mapM s.premises : Except Error (Option (List AtomId)))
    let r ← (Forward.chain s rules.inOrder ids t.params clock : Except Error Forward.Result)
    return r.toValue
  | .backward goal rules => do
    let goal ← goal.pattern
    return (← Backward.chain s rules goal t.params clock).toValue
  | .abduction observation candidates => do
    let observation ← observation.pattern
    return (← Abduction.explain s observation candidates t.params).toValue
  | .analogy source target floor => do
    let sources ← s.domain source
    let targets ← s.domain target
    let r ← (Analogy.reason s sources targets t.params floor : Except Error Analogy.Result)
    return r.toValue
  | .propagation graph => return (← Propagation.reason s graph t.params).toValue
  | .temporal facts claims window reference => do
    let r ← (Temporal.reason s facts claims t.params window reference clock :
      Except Error Temporal.Result)
    return r.toValue

/-- Builds a task and answers it, or reports why there is none. -/
def Engine.answer (e : Engine) (t : Except Error Task) (s : Store) : Reading Value := do
  let t ← t
  t.perform e.clock s

/-- Answers a named strategy with its parameters and inputs. -/
def Engine.infer (e : Engine) (strategy params inputs : Value) (s : Store) : Reading Value :=
  e.answer (e.task strategy params inputs) s

end Credence
