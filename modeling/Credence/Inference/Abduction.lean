import Credence.Inference.Outcome
import Credence.Number.Mean
import Credence.Params
import Credence.Rule.Base
import Credence.Store.Match
/-!
# Abduction

Hypotheses that predict an observation are ranked by plausibility: their prior times
how well the store agrees with them. Agreement is the mean support of the required
conditions, where a condition is supported by its strongest matching fact, scaled by
the strength of every part of the explanation that is itself a stored fact.
-/

namespace Credence.Abduction

/-- A hypothesis to try: still written down, or ready. -/
inductive Candidate where
  | written (v : Value)
  | ready (h : Hypothesis)

/-- The hypothesis of a candidate. -/
def Candidate.hypothesis : Candidate → Except Error Hypothesis
  | written v => Hypothesis.ofValue v
  | ready h => .ok h

/-- A hypothesis with its plausibility and what it rests on. -/
structure Scored where
  name : Value
  statement : String
  plausibility : Float
  prior : Scalar
  consistency : Float
  evidence : List String
  bindings : Table String Pattern
deriving Repr

/-- The findings of a run, the most plausible hypothesis first. -/
structure Result where
  outcome : Outcome
  observation : Pattern
  hypotheses : List Scored
deriving Repr

/-- The strength that an atom counts with. -/
def strengthOf (s : Store) (useUncertainty : Bool) (id : AtomId) : Float :=
  if useUncertainty then
    match s.get? id with
    | some a => a.truth.strength
    | none => 0.0
  else 1.0

/-- The strongest of some atoms, the first of equals. -/
def strongest (strength : AtomId → Float) : List AtomId → Option (AtomId × Float)
  | [] => none
  | id :: ids => some <| ids.foldl
      (fun best id => if strength id > best.2 then (id, strength id) else best) (id, strength id)

/-- The strongest atom that matches a condition. -/
def support (s : Store) (useUncertainty : Bool) (condition : Pattern) :
    Reading (Option (AtomId × Float)) := do
  let ms ← Reading.matchesFrom s condition .empty
  return strongest (strengthOf s useUncertainty) (ms.map Match.atomId)

/-- The supports of conditions, and the texts of the atoms that give them. -/
def supports (s : Store) (useUncertainty : Bool) :
    List Pattern → Reading (List Float × List String)
  | [] => return ([], [])
  | c :: cs => do
    match ← support s useUncertainty c with
    | none =>
      let (xs, texts) ← supports s useUncertainty cs
      return (0.0 :: xs, texts)
    | some (id, x) =>
      let text ← (s.toText id : Except Error String)
      let (xs, texts) ← supports s useUncertainty cs
      return (x :: xs, text :: texts)

/-- Scales consistency by the strength of each statement that is a stored fact. -/
def confirm (s : Store) (useUncertainty : Bool) :
    List Pattern → Float → Reading (Float × List String)
  | [], consistency => return (consistency, [])
  | p :: ps, consistency => do
    if !p.isGround then confirm s useUncertainty ps consistency
    else match ← Reading.lookup s p with
      | none => confirm s useUncertainty ps consistency
      | some id =>
        let scaled := if useUncertainty then consistency * strengthOf s true id else consistency
        let text ← (s.toText id : Except Error String)
        let (consistency, texts) ← confirm s useUncertainty ps scaled
        return (consistency, text :: texts)

/-- Scores a hypothesis whose prediction unifies with the observation under `θ`. -/
def score (s : Store) (useUncertainty : Bool) (h : Hypothesis) (θ : Substitution)
    (observation : Pattern) : Reading Scored := do
  let statements := h.statements.map θ.apply
  let (xs, required) ← supports s useUncertainty (h.requires.map θ.apply)
  let (consistency, confirmed) ← confirm s useUncertainty statements
    (if xs.isEmpty then 1.0 else Number.mean xs)
  return ⟨h.name, " AND ".intercalate (statements.map Pattern.toText), h.prior.toFloat * consistency,
    h.prior, consistency, required ++ confirmed, θ.resolve observation.vars⟩

/-- Tries candidates in order, the next one numbered `index`, until `maxResults` are scored. -/
def examine (s : Store) (params : Params) (observation : Pattern) :
    Nat → List Scored → List Candidate → Reading (Outcome × List Scored)
  | index, scored, [] => return (⟨false, false, index⟩, scored)
  | index, scored, c :: cs => do
    let h ← (c.hypothesis : Except Error Hypothesis)
    if scored.length ≥ params.maxResults then return (⟨true, false, index⟩, scored)
    let h := h.renamed ("_h" ++ toString index)
    match Unification.unify observation h.predicts .empty with
    | none => examine s params observation (index + 1) scored cs
    | some θ =>
      let sc ← score s params.useUncertainty h θ observation
      examine s params observation (index + 1) (scored ++ [sc]) cs

/-- Ranks the candidates that explain an observation. -/
def explain (s : Store) (observation : Pattern) (candidates : List Candidate) (params : Params) :
    Reading Result := do
  let (outcome, scored) ← examine s params observation 0 [] candidates
  return ⟨outcome, observation,
    scored.mergeSort fun h h' => decide (h'.plausibility ≤ h.plausibility)⟩

/-- The record of a hypothesis. -/
def Scored.toValue (observation : Pattern) (h : Scored) : Value :=
  .record [("hypothesis", h.name), ("statement", .text h.statement),
    ("explanation", .text (h.statement ++ " would explain " ++ observation.toText)),
    ("plausibility", .float h.plausibility), ("prior", h.prior.toValue),
    ("consistency", .float h.consistency), ("supportingEvidence", Value.texts h.evidence),
    ("bindings", .record (h.bindings.entries.map fun e => (e.1, .text e.2.toText)))]

/-- The record of a result. -/
def Result.toValue (r : Result) : Value :=
  let hypotheses := r.hypotheses.map (Scored.toValue r.observation)
  r.outcome.record "abductiveReasoning"
    [("observation", .text r.observation.toText), ("hypotheses", .list hypotheses),
      ("bestExplanation", hypotheses.head?.getD .null)]

end Credence.Abduction
