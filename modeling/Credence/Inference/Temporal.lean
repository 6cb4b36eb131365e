import Credence.Deadline
import Credence.Inference.Outcome
import Credence.Number.Mean
import Credence.Params
import Credence.Store.Reference
import Credence.Time.Duration
import Credence.Time.Instant
import Credence.Time.Precedence
import Credence.Time.Relation
/-!
# Temporal reasoning

Facts occupy intervals: from a start on for a duration, or up to the reference time
while they are ongoing. Every two facts are related, claimed relations are checked
against each other and against the intervals, and a label that recurs predicts its
next start.

A claim that contradicts the intervals, two claims about one pair that differ, and
claims that put events before each other in a circle are violations; everything
softer is a warning.
-/

namespace Credence.Temporal

/-! ## What is given -/

/-- A labelled interval; without a duration it is ongoing. -/
structure Fact where
  label : String
  start : Instant
  duration : Option Span
  atom : Option Int
  confidence : Option Float
deriving Repr

/-- The claim that the first event stands in a relation to the second. -/
structure Claim where
  event : String
  other : String
  relation : Relation
deriving Repr, DecidableEq

/-- Reads a fact. -/
def Fact.reader : Reader Fact := Fields.reader <|
  Fact.mk <$> Fields.required ["label"] Reader.name
    <*> Fields.required ["start"] Instant.reader
    <*> Fields.withDefault ["duration"] none
      (Reader.optional (Reader.guard Duration.reader .refused fun d => d ≥ 0))
    <*> Fields.withDefault ["atom"] none (Reader.optional Reader.int)
    <*> Fields.withDefault ["confidence"] none (Reader.optional Reader.unit)

/-- Reads the name of a relation. -/
def relationReader : Reader Relation := fun v => do
  let s ← Reader.text v
  match Relation.ofName? s with
  | some r => return r
  | none => Reader.fail .refused

/-- Reads a claim. -/
def Claim.reader : Reader Claim := Fields.reader <|
  Claim.mk <$> Fields.required ["event1"] Reader.text
    <*> Fields.required ["event2"] Reader.text
    <*> Fields.required ["relation"] relationReader

/-- The facts of a list of documents. -/
def factsOf (vs : List Value) : Except Error (List Fact) :=
  vs.mapM (fit "TemporalFact" Fact.reader)

/-- The claims of a list of documents. -/
def claimsOf (vs : List Value) : Except Error (List Claim) :=
  vs.mapM (fit "RelationAssertion" Claim.reader)

/-! ## What is found -/

/-- A fact with its end. -/
structure Record where
  label : String
  start : Instant
  stop : Instant
  ongoing : Bool
  confidence : Float
deriving Repr

/-- The interval of a fact. -/
def Record.interval (r : Record) : Interval Instant := ⟨r.start, r.stop⟩

/-- How one fact lies to another. -/
def Record.relationTo (r r' : Record) : Relation := .between r.interval r'.interval

/-- Two facts and how the first lies to the second. -/
structure Related where
  event : String
  other : String
  relation : Relation
  confidence : Float
deriving Repr

/-- A contradiction. -/
inductive Violation where
  | conflict (event other : String) (relations : List Relation)
  | contradiction (c : Claim) (computed : List Relation)
  | cycle (labels : List String)
deriving Repr

/-- A soft problem. -/
inductive Warning where
  | outside (label window : String)
  | ongoing (label : String)
  | unknown (label : String)
  | toItself (label : String)
deriving Repr

/-- The next start of a label. -/
structure Prediction where
  event : String
  time : Instant
  confidence : Float
deriving Repr

/-- The findings of a run. -/
structure Result where
  outcome : Outcome
  window : Option String
  facts : List Record
  relations : List Related
  violations : List Violation
  warnings : List Warning
  predictions : List Prediction
deriving Repr

/-- The names of relations in order, joined by commas. -/
def listed (rs : List Relation) : String := ", ".intercalate (rs.map Relation.name)

/-- The wording of a violation. -/
def Violation.message : Violation → String
  | conflict a b rs =>
    "conflicting relations between " ++ Text.literal a ++ " and " ++ Text.literal b ++ ": " ++
      listed rs
  | contradiction c rs =>
    "asserted " ++ Text.literal c.event ++ " " ++ c.relation.name ++ " " ++
      Text.literal c.other ++ " but intervals give " ++
      ", ".intercalate (Text.sorted (rs.map Relation.name))
  | cycle ls => "precedence cycle: " ++ " -> ".intercalate ls

/-- The wording of a warning. -/
def Warning.message : Warning → String
  | outside l w => "fact " ++ Text.literal l ++ " lies outside the " ++ w ++ " window"
  | ongoing l => "fact " ++ Text.literal l ++ " is ongoing"
  | unknown l => "relation refers to unknown or excluded fact " ++ Text.literal l
  | toItself l => "relation of " ++ Text.literal l ++ " to itself ignored"

/-! ## Intervals -/

/-- The end of a fact that is not ongoing. -/
def Fact.stop? (f : Fact) : Option (Except Error Instant) := f.duration.map f.start.shift

/-- The latest start or end among facts. -/
def latest (fs : List Fact) : Except Error (Option Instant) := do
  let stops ← (fs.filterMap Fact.stop?).mapM id
  match fs.map Fact.start ++ stops with
  | [] => return none
  | t :: ts => return some (ts.foldl Instant.later t)

/-- The confidence of a fact: its own, that of its atom, or full. -/
def confidenceOf (s : Store) (useUncertainty : Bool) (f : Fact) : Except Error Float :=
  match f.confidence, f.atom with
  | some x, _ => return x
  | none, none => return 1.0
  | none, some id => do
    let a ← s.atomOf (.int id)
    return if useUncertainty then a.truth.confidence else 1.0

/-- A window that ends at the reference time: as it was written, and its length. -/
structure Window where
  text : String
  length : Span

/-- Whether a window leaves an interval out. -/
def Window.excludes (w : Window) (reference start stop : Instant) : Except Error Bool := do
  let first ← reference.shift (-w.length)
  return stop.before first || reference.before start

/-- The record of a fact, if the window holds it, and its warnings. -/
def recordOf (s : Store) (useUncertainty : Bool) (window : Option Window) (reference : Instant)
    (f : Fact) : Except Error (Option Record × List Warning) := do
  let stop ← f.stop?.getD (.ok (f.start.later reference))
  let ongoing := f.duration.isNone
  let excluded ← match window with
    | some w => w.excludes reference f.start stop
    | none => pure false
  if excluded then
    return (none, [.outside f.label ((window.map Window.text).getD "")])
  let confidence ← confidenceOf s useUncertainty f
  return (some ⟨f.label, f.start, stop, ongoing, confidence⟩,
    if ongoing then [.ongoing f.label] else [])

/-- The records of facts, and all their warnings. -/
def recordsOf (s : Store) (useUncertainty : Bool) (window : Option Window)
    (reference : Option Instant) (fs : List Fact) : Except Error (List Record × List Warning) := do
  let reference ← match reference with
    | some t => pure (some t)
    | none => latest fs
  match reference with
  | none => return ([], [])
  | some t =>
    let found ← fs.mapM (recordOf s useUncertainty window t)
    return (found.filterMap Prod.fst, found.flatMap Prod.snd)

/-! ## Relations of pairs -/

/-- Every record with each one after it. -/
def pairs : List Record → List (Record × Record)
  | [] => []
  | r :: rs => rs.map (r, ·) ++ pairs rs

/-- Relates a pair. -/
def relate (p : Record × Record) : Related :=
  ⟨p.1.label, p.2.label, p.1.relationTo p.2, min p.1.confidence p.2.confidence⟩

/-- Relates pairs until the bound or the deadline, after `done` of them and `readings` of the
clock. -/
def relateAll (maxSteps : Nat) (d : Deadline) :
    List (Record × Record) → (done readings : Nat) → Outcome × List Related
  | [], done, _ => (⟨false, false, done⟩, [])
  | p :: ps, done, readings =>
    if done ≥ maxSteps then (⟨true, false, done⟩, [])
    else
      let (expired, readings) := d.poll readings
      if expired then (⟨false, true, done⟩, [])
      else
        let (outcome, more) := relateAll maxSteps d ps (done + 1) readings
        (outcome, relate p :: more)

/-! ## Checking claims -/

/-- The claim about the pair in the order of its labels. -/
def Claim.ordered (c : Claim) : Claim :=
  if Text.atMost c.event c.other then c else ⟨c.other, c.event, c.relation.inverse⟩

/-- The different relations claimed for each pair, in the order of the claims. -/
def claimed (cs : List Claim) : Table (String × String) (List Relation) :=
  cs.foldl (fun t c =>
    let c := c.ordered
    t.alter (c.event, c.other) fun rs =>
      let rs := rs.getD []
      if c.relation ∈ rs then rs else rs ++ [c.relation]) .empty

/-- Pairs with more than one claimed relation. -/
def conflicts (cs : List Claim) : List Violation :=
  (claimed cs).entries.filterMap fun e =>
    if e.2.length > 1 then some (.conflict e.1.1 e.1.2 e.2) else none

/-- The labels of a claim that no record bears. -/
def Claim.missing (rs : List Record) (c : Claim) : List String :=
  [c.event, c.other].filter fun l => !(rs.map Record.label).contains l

/-- The relations that the intervals give for a claim. -/
def Claim.computed (rs : List Record) (c : Claim) : List Relation :=
  distinct <| (rs.filter fun r => r.label = c.event).flatMap fun r =>
    (rs.filter fun r' => r'.label = c.other).map r.relationTo

/-- The warnings of a claim. -/
def Claim.warnings (rs : List Record) (c : Claim) : List Warning :=
  let missing := c.missing rs
  if !missing.isEmpty then missing.map .unknown
  else if c.event = c.other then [.toItself c.event]
  else []

/-- The contradiction between a claim and the intervals. -/
def Claim.violation? (rs : List Record) (c : Claim) : Option Violation :=
  if (c.missing rs).isEmpty && c.event ≠ c.other && !(c.computed rs).contains c.relation then
    some (.contradiction c (c.computed rs))
  else none

/-- The claim as one event before another, if it is one. -/
def Claim.precedence? (c : Claim) : Option Precedence.Edge :=
  match c.relation with
  | .before | .meets => some (c.event, c.other)
  | .after | .metBy => some (c.other, c.event)
  | _ => none

/-- All contradictions of claims: among each other, with the intervals, and in a circle. -/
def violations (rs : List Record) (cs : List Claim) : List Violation :=
  conflicts cs ++ cs.filterMap (Claim.violation? rs) ++
    ((Precedence.cycle? (cs.filterMap Claim.precedence?)).map Violation.cycle).toList

/-! ## Recurrences -/

/-- The starts of each label, in the order of the records. -/
def startsOf (rs : List Record) : Table String (List Instant) :=
  rs.foldl (fun t r => t.alter r.label fun ts => ts.getD [] ++ [r.start]) .empty

/-- The seconds between instants that follow each other. -/
def gaps : List Instant → List Float
  | t :: t' :: ts => (t'.since t).seconds :: gaps (t' :: ts)
  | _ => []

/-- The next start after several: the last one and the mean gap, the more certain the less the gaps
deviate. Starts that all coincide predict nothing. -/
def recurrence? (label : String) (starts : List Instant) : Option (Except Error Prediction) :=
  let ts := Instant.inOrder starts
  let mean := Number.mean (gaps ts)
  match ts.getLast? with
  | some last =>
    if ts.length < 2 || mean ≤ 0.0 then none
    else
      let steadiness := 1.0 - Number.deviation (gaps ts) / mean
      some <| (last.shift (Span.ofSeconds mean)).map fun t =>
        ⟨label, t, if steadiness > 0.0 then steadiness else 0.0⟩
  | none => none

/-- The predictions of records, at most `maxResults`. -/
def predictions (rs : List Record) (maxResults : Nat) : Except Error (List Prediction) :=
  (((startsOf rs).entries.filterMap fun e => recurrence? e.1 e.2).take maxResults).mapM id

/-! ## Results -/

/-- The window of a text. -/
def windowOf (text : Option String) : Except Error (Option Window) :=
  match text with
  | none => return none
  | some w => do return some ⟨w, ← Span.ofWindow w⟩

/-- Relates, checks and extrapolates facts. -/
def reason (s : Store) (facts : List Fact) (claims : List Claim) (params : Params)
    (window : Option String) (reference : Option Instant) (clock : Clock) :
    Except Error Result := do
  let w ← windowOf window
  let (records, warnings) ← recordsOf s params.useUncertainty w reference facts
  let (outcome, related) := relateAll params.maxSteps ⟨params.timeout, clock⟩ (pairs records) 0 0
  let expected ← predictions records params.maxResults
  return ⟨outcome, window, records, related, violations records claims,
    warnings ++ claims.flatMap (Claim.warnings records), expected⟩

/-- The record of a fact. -/
def Record.toValue (r : Record) : Value :=
  .record [("fact", .text r.label), ("timestamp", .text r.start.toText),
    ("end", .text r.stop.toText),
    ("duration", if r.ongoing then .text "ongoing" else .float (r.stop.since r.start).seconds),
    ("confidence", .float r.confidence)]

/-- The record of a related pair. -/
def Related.toValue (r : Related) : Value :=
  .record [("event1", .text r.event), ("event2", .text r.other),
    ("relation", .text r.relation.name), ("confidence", .float r.confidence),
    ("type", .text r.relation.family)]

/-- The record of a prediction. -/
def Prediction.toValue (p : Prediction) : Value :=
  .record [("event", .text p.event), ("predictedTime", .text p.time.toText),
    ("confidence", .float p.confidence)]

/-- The record of a result. -/
def Result.toValue (r : Result) : Value :=
  let consistency := .record [("isConsistent", .bool r.violations.isEmpty),
    ("violations", Value.texts (r.violations.map Violation.message)),
    ("warnings", Value.texts (r.warnings.map Warning.message))]
  r.outcome.record "temporalReasoning"
    [("timeWindow", Value.ofOption .text r.window),
      ("temporalFacts", .list (r.facts.map Record.toValue)),
      ("temporalRelations", .list (r.relations.map Related.toValue)),
      ("consistencyCheck", consistency),
      ("predictions", .list (r.predictions.map Prediction.toValue))]

end Credence.Temporal
