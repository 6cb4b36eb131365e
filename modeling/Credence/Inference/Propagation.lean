import Credence.Inference.Outcome
import Credence.Params
import Credence.Rule.Spec
import Credence.Store.Match
/-!
# Probability propagation

Facts depend on other facts. A fact without dependencies has a given probability or
the strength of a stored atom; any other takes the product of its dependencies,
times its own probability, or follows a table of what holds with its parents and
without them.

Propagation goes in rounds: a fact is resolved in the first round in which all its
dependencies were resolved before. Facts on a cycle are never resolved.
-/

namespace Credence.Propagation

/-- The probabilities of a fact with its parents and without them. -/
structure Conditional where
  ifTrue : Float
  ifFalse : Float
deriving Repr

/-- A fact and what it depends on. -/
structure Fact where
  statement : String
  probability : Option Float
  dependencies : List String
  conditional : Option Conditional
deriving Repr

/-- Reads a table. -/
def Conditional.reader : Reader Conditional := Fields.reader <|
  Conditional.mk <$> Fields.required ["true", "if_true"] Reader.unit
    <*> Fields.withDefault ["false", "if_false"] 0.0 Reader.unit

/-- Reads a fact. -/
def Fact.reader : Reader Fact := Fields.reader <|
  Fact.mk <$> Fields.required ["statement"] Reader.name
    <*> Fields.withDefault ["probability"] none (Reader.optional Reader.unit)
    <*> Fields.withDefault ["dependencies"] [] (Reader.list Reader.text)
    <*> Fields.withDefault ["conditional"] none (Reader.optional Conditional.reader)

/-- Whether a fact depends on nothing. -/
def Fact.isRoot (f : Fact) : Bool := f.dependencies.isEmpty

/-- The first statement that a list repeats. -/
def firstRepeated : List String → List String → Option String
  | _, [] => none
  | seen, s :: rest => if seen.contains s then some s else firstRepeated (s :: seen) rest

/-- Refuses a fact with an undeclared dependency or a table that does not fit it. -/
def Fact.check (declared : List String) (f : Fact) : Except Error Unit :=
  match f.dependencies.find? fun d => !declared.contains d with
  | some d => .error (.fact (.undeclared f.statement d))
  | none =>
    if f.conditional.isSome then
      if f.isRoot then .error (.fact (.tableWithoutParents f.statement))
      else if f.probability.isSome then .error (.fact (.tableAndProbability f.statement))
      else .ok ()
    else .ok ()

/-- Refuses repeated statements, undeclared dependencies and tables that do not fit. -/
def checkGraph (fs : List Fact) : Except Error (List Fact) := do
  let declared := fs.map Fact.statement
  match firstRepeated [] declared with
  | some s => throw (.fact (.duplicate s))
  | none =>
    fs.forM (Fact.check declared)
    return fs

/-- The graph of a list of documents. -/
def graphOf (vs : List Value) : Except Error (List Fact) := do
  let fs ← vs.mapM (fit "probabilistic fact" Fact.reader)
  checkGraph fs

/-- How a probability came about. -/
inductive Mode where
  | prior
  | store
  | conditional
  | independent
  | unresolved
deriving Repr, DecidableEq

/-- The name of a mode. -/
def Mode.name : Mode → String
  | prior => "prior"
  | store => "store"
  | conditional => "conditional"
  | independent => "independent"
  | unresolved => "unresolved"

/-- The probability of a root: its own, or the strength of the oldest atom that matches it. -/
def priorOf (s : Store) (f : Fact) : Reading (Float × Mode) :=
  match f.probability with
  | some x => return (x, .prior)
  | none => do
    let p ← (parsePattern f.statement : Except Error Pattern)
    match (← Reading.lookup s p).bind s.get? with
    | some a => return (a.truth.strength, .store)
    | none => throw (.fact (.noPrior f.statement))

/-- The probabilities of all roots. -/
def priorsOf (s : Store) : List Fact → Reading (Table String (Float × Mode))
  | [] => return .empty
  | f :: fs => do
    if !f.isRoot then priorsOf s fs
    else
      let x ← priorOf s f
      let rest ← priorsOf s fs
      return ⟨(f.statement, x) :: rest.entries⟩

/-- The product of the probabilities of dependencies. -/
def product (resolved : Table String (Float × Mode)) (ds : List String) : Float :=
  ds.foldl (fun x d => x * ((resolved.get? d).map Prod.fst).getD 1.0) 1.0

/-- The probability of a fact whose dependencies are resolved. -/
def combine (resolved : Table String (Float × Mode)) (f : Fact) : Float × Mode :=
  let parents := product resolved f.dependencies
  match f.conditional with
  | some table => (table.ifTrue * parents + table.ifFalse * (1.0 - parents), .conditional)
  | none => (parents * f.probability.getD 1.0, .independent)

/-- Whether every dependency of a fact is resolved. -/
def isReady (resolved : Table String (Float × Mode)) (f : Fact) : Bool :=
  f.dependencies.all resolved.contains

/-- The probability of a ready fact. -/
def valueOf (priors resolved : Table String (Float × Mode)) (f : Fact) : Float × Mode :=
  if f.isRoot then (priors.get? f.statement).getD (0.0, .unresolved) else combine resolved f

/-- What propagation has done: the resolved facts in order, those pending, the rounds. -/
structure Progress where
  resolved : Table String (Float × Mode)
  pending : List Fact
  rounds : Nat

/-- Runs at most `more` rounds. -/
def propagate (priors : Table String (Float × Mode)) : Nat → Progress → Progress
  | 0, pr => pr
  | more + 1, pr =>
    let ready := pr.pending.filter (isReady pr.resolved)
    if ready.isEmpty then pr
    else
      let resolved := ready.foldl
        (fun t f => t.insert f.statement (valueOf priors pr.resolved f)) pr.resolved
      propagate priors more
        ⟨resolved, pr.pending.filter fun f => !isReady pr.resolved f, pr.rounds + 1⟩

/-- A derived fact. -/
structure Derived where
  statement : String
  probability : Float
  dependencies : List String
deriving Repr

/-- The findings of a run. -/
structure Result where
  outcome : Outcome
  facts : List (Fact × Option (Float × Mode))
  derived : List Derived
  unresolved : List String
deriving Repr

/-- Resolves the facts of a graph as far as the bound on rounds allows. -/
def reason (s : Store) (graph : List Fact) (params : Params) : Reading Result := do
  let priors ← priorsOf s graph
  let pr := propagate priors params.maxSteps ⟨.empty, graph, 0⟩
  let cut := !pr.pending.isEmpty && pr.rounds ≥ params.maxSteps
  let derived := pr.resolved.entries.filterMap fun e =>
    (graph.find? fun f => f.statement = e.1).bind fun f =>
      if f.isRoot then none else some (Derived.mk f.statement e.2.1 f.dependencies)
  return ⟨⟨cut || derived.length > params.maxResults, false, pr.rounds⟩,
    graph.map fun f => (f, pr.resolved.get? f.statement),
    derived.take params.maxResults, pr.pending.map Fact.statement⟩

/-- The probability that a derived fact does not hold. -/
def Derived.uncertainty (d : Derived) : Float := 1.0 - d.probability

/-- The record of a fact with its probability. -/
def factValue (f : Fact) (x : Option (Float × Mode)) : Value :=
  .record [("fact", .text f.statement), ("probability", Value.ofOption (fun x => .float x.1) x),
    ("dependencies", Value.texts f.dependencies),
    ("mode", .text ((x.map Prod.snd).getD .unresolved).name)]

/-- The record of a derived fact. -/
def Derived.toValue (d : Derived) : Value :=
  .record [("statement", .text d.statement), ("probability", .float d.probability),
    ("uncertainty", .float d.uncertainty), ("derivedFrom", Value.texts d.dependencies)]

/-- The mean of doubles added up from left to right. -/
def plainMean (xs : List Float) : Float := xs.foldl (· + ·) 0.0 / Float.ofNat xs.length

/-- The uncertainty of the derived facts, together and one by one. -/
def metrics (ds : List Derived) : Value :=
  if ds.isEmpty then
    .record [("totalUncertainty", .float 0.0), ("avgConfidence", .float 0.0),
      ("perFact", .record [])]
  else
    .record [("totalUncertainty", .float (plainMean (ds.map Derived.uncertainty))),
      ("avgConfidence", .float (plainMean (ds.map Derived.probability))),
      ("perFact", .record (ds.map fun d => (d.statement, .float d.uncertainty)))]

/-- The record of a result. -/
def Result.toValue (r : Result) : Value :=
  r.outcome.record "probabilisticReasoning"
    [("probabilisticFacts", .list (r.facts.map fun f => factValue f.1 f.2)),
      ("inferences", .list (r.derived.map Derived.toValue)),
      ("uncertaintyHandling", .text "independent product / total probability"),
      ("uncertaintyMetrics", metrics r.derived), ("unresolved", Value.texts r.unresolved)]

/-- The record of a fact as it was given. -/
def Fact.toValue (f : Fact) : Value :=
  .record [("statement", .text f.statement),
    ("probability", Value.ofOption .float f.probability),
    ("dependencies", Value.texts f.dependencies),
    ("conditional", Value.ofOption
      (fun (c : Conditional) => .record [("true", .float c.ifTrue), ("false", .float c.ifFalse)])
      f.conditional)]

end Credence.Propagation
