import Credence.Document.Issue
import Credence.Document.Scalar
import Credence.Pattern.Basic
import Credence.Truth
/-!
# Errors

Every failure of the library is one of these causes. `message` gives its wording,
`family` the name under which callers catch it.
-/

namespace Credence

/-- Why a rule is refused. -/
inductive RuleError where
  | noPremises (rule : Value)
  | noConclusion (rule : Value)
  | unbound (rule : Value) (names : List String)
  | reliability (rule : Value) (got : Value)
deriving Repr

/-- Why a graph of dependent facts is refused. -/
inductive FactError where
  | duplicate (fact : String)
  | undeclared (fact dependency : String)
  | tableWithoutParents (fact : String)
  | tableAndProbability (fact : String)
  | noPrior (fact : String)
deriving Repr

/-- Why a written date and time names no instant. -/
inductive CalendarError where
  | unreadable (text : String)
  | year (n : Int)
  | month
  | day
  | hour
  | minute
  | second
  /-- A distance from universal time, in microseconds, of a day or more. -/
  | offset (distance : Int)
deriving Repr

/-- The causes of failure. -/
inductive Error where
  /-- A word that names no kind. -/
  | unknownKind (word : Value)
  /-- A word that names no kind, given for an atom. -/
  | unknownAtomKind (word : Value)
  /-- A number of outgoing atoms that the kind does not take. -/
  | outgoingCount (kind : Kind) (got : Scalar)
  | missingName (kind : NodeKind)
  | unexpectedName (kind : LinkKind)
  | truth (e : TruthError)
  | dangling (ref : Value)
  | notFound (ref : Value)
  | pattern (e : PatternError)
  | rule (e : RuleError)
  | fact (e : FactError)
  | unknownStrategy (name : Value)
  /-- A document that does not fit the named description. -/
  | unfit (what : String) (issues : List Issue)
  /-- A record that does not fit its own fields. -/
  | unfitRecord (issues : List Issue)
  | negativeLimit
  | window (text : String)
  | similarityFloor (got : Value)
  | notARequest (kindName : String)
  | unknownOperation (name : Value)
  | unknownMode (mode : Value)
  | calendar (e : CalendarError)
  /-- What is no number, given for a span. -/
  | undefinedSpan
  /-- A number, a time or a span beyond what can be represented. -/
  | overflow
deriving Repr

/-- The wording of a rule error. -/
def RuleError.message : RuleError → String
  | noPremises r => "rule " ++ r.literal ++ " has no premises"
  | noConclusion r => "rule " ++ r.literal ++ " has no conclusion"
  | unbound r vs =>
    "rule " ++ r.literal ++ ": conclusion variables " ++ (Value.texts vs).literal ++
      " do not occur in its premises"
  | reliability r got =>
    "rule " ++ r.literal ++ ": reliability must be in [0, 1], got " ++ got.literal

/-- The wording of a fact error. -/
def FactError.message : FactError → String
  | duplicate f => "duplicate fact " ++ Text.literal f
  | undeclared f d =>
    "fact " ++ Text.literal f ++ " depends on undeclared fact " ++ Text.literal d
  | tableWithoutParents f => "conditional fact " ++ Text.literal f ++ " has no dependencies"
  | tableAndProbability f =>
    "conditional fact " ++ Text.literal f ++ " takes its probability from the table"
  | noPrior f =>
    "root fact " ++ Text.literal f ++ " has no probability and matches no stored atom"

/-- The text of a number of microseconds inside a message: its days, its seconds and what is left,
as far as there are any. -/
def spanLiteral (micros : Int) : String :=
  let days := micros.fdiv 86400000000
  let rest := micros - days * 86400000000
  let parts := [("days", days), ("seconds", rest / 1000000), ("microseconds", rest % 1000000)]
  let shown := (parts.filter fun p => p.2 ≠ 0).map fun p => p.1 ++ "=" ++ toString p.2
  "datetime.timedelta(" ++ (if shown.isEmpty then "0" else ", ".intercalate shown) ++ ")"

/-- The wording of a calendar error. -/
def CalendarError.message : CalendarError → String
  | unreadable s => "Invalid isoformat string: " ++ Text.literal s
  | year n => "year " ++ toString n ++ " is out of range"
  | month => "month must be in 1..12"
  | day => "day is out of range for month"
  | hour => "hour must be in 0..23"
  | minute => "minute must be in 0..59"
  | second => "second must be in 0..59"
  | offset d =>
    "offset must be a timedelta strictly between -timedelta(hours=24) and timedelta(hours=24), not " ++
      spanLiteral d ++ "."

namespace Error

/-- The wording of an error; an unfit record and an overflow have none of their own. -/
def message : Error → String
  | unknownKind w => "unknown atom kind: " ++ w.literal
  | unknownAtomKind w => "unknown atom kind: " ++ w.literal
  | outgoingCount (.node k) n =>
    k.name ++ " expects 0 outgoing atoms, got " ++ n.toValue.literal
  | outgoingCount (.link k) n =>
    k.name ++ " expects " ++ k.describeArity ++ " outgoing atoms, got " ++ n.toValue.literal
  | missingName k => k.name ++ " atoms require a non-empty name"
  | unexpectedName k => k.name ++ " links do not take a name"
  | truth e => e.message
  | dangling r => "outgoing reference to unknown atom " ++ r.literal
  | notFound r => "atom " ++ r.literal ++ " not found"
  | pattern e => e.message
  | rule e => e.message
  | fact e => e.message
  | unknownStrategy n => "unknown inference strategy: " ++ n.literal
  | unfit what _ => "invalid " ++ what
  | unfitRecord _ => ""
  | negativeLimit => "max_results must be >= 0"
  | window w => "invalid time window " ++ Text.literal w
  | similarityFloor got => "similarity floor must be in [0, 1], got " ++ got.literal
  | notARequest k => "request must be a mapping, got " ++ k
  | unknownOperation n => "unknown operation " ++ n.literal
  | unknownMode m => m.literal ++ " is not a valid ErrorMode"
  | calendar e => e.message
  | undefinedSpan => "cannot convert float NaN to integer"
  | overflow => ""

/-- The name under which callers catch an error. -/
def family : Error → String
  | unknownKind _ => "ValueError"
  | unknownAtomKind _ => "AtomSpaceError"
  | outgoingCount _ _ => "InvalidArity"
  | missingName _ => "AtomSpaceError"
  | unexpectedName _ => "AtomSpaceError"
  | truth .tooLarge => "OverflowError"
  | truth _ => "InvalidTruthValue"
  | dangling _ => "DanglingReference"
  | notFound _ => "NotFound"
  | pattern _ => "InvalidPatternError"
  | rule (.reliability _ _) => "InvalidInferenceInput"
  | rule _ => "InvalidPatternError"
  | fact _ => "InvalidInferenceInput"
  | unknownStrategy _ => "UnknownStrategy"
  | unfit _ _ => "InvalidInferenceInput"
  | unfitRecord _ => "ValidationError"
  | negativeLimit => "ValueError"
  | window _ => "InvalidInferenceInput"
  | similarityFloor _ => "InvalidInferenceInput"
  | notARequest _ => "InvalidInferenceInput"
  | unknownOperation _ => "InvalidInferenceInput"
  | unknownMode _ => "ValueError"
  | calendar _ => "ValueError"
  | undefinedSpan => "ValueError"
  | overflow => "OverflowError"

/-- The issues of a document that does not fit. -/
def issues : Error → List Issue
  | unfit _ is => is
  | unfitRecord is => is
  | _ => []

/-- Whether an error is one that a tolerant batch records; the others end it. -/
def isRecorded : Error → Bool
  | unknownKind _ => false
  | truth .tooLarge => false
  | unfitRecord _ => false
  | negativeLimit => false
  | unknownMode _ => false
  | calendar _ => false
  | undefinedSpan => false
  | overflow => false
  | _ => true

end Error

/-- Whether a link may hold a number of children that is given as any number. -/
def LinkKind.admits (k : LinkKind) (n : Scalar) : Bool :=
  (Scalar.ofNat k.least).isAtMost n && match k.most with
    | none => true
    | some high => n.isAtMost (.ofNat high)

/-- Refuses a number of children that links of a kind do not take. -/
def LinkKind.check (k : LinkKind) (n : Scalar) : Except Error Unit :=
  if k.admits n then .ok () else .error (.outgoingCount (.link k) n)

end Credence
