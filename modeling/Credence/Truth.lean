import Credence.Document.Value
import Credence.Number.Places
/-!
# Truth values

A truth value is a strength (how true) and a confidence (how well supported), both
from 0 to 1. Independent conjuncts multiply their strengths and keep the least
confidence; a rule of limited reliability scales the confidence of what it derives.
-/

namespace Credence

/-- A strength and a confidence. -/
structure Truth where
  strength : Float
  confidence : Float
deriving Repr, Inhabited

/-- Why a document is no truth value. -/
inductive TruthError where
  | notANumber (label : String) (v : Value)
  | outOfRange (label : String) (x : Float)
  | tooLarge
  | missingPart (key : String)
  | notATruth (v : Value)
deriving Repr

/-- The wording of a truth error. -/
def TruthError.message : TruthError → String
  | notANumber label v => label ++ " must be a number in [0, 1], got " ++ v.literal
  | outOfRange label x => label ++ " must be in [0, 1], got " ++ Number.text x
  | tooLarge => "int too large to convert to float"
  | missingPart key => "truth value missing " ++ Text.literal key
  | notATruth v => "cannot interpret " ++ v.literal ++ " as a truth value"

/-- Whether a double lies between 0 and 1. -/
def inUnit (x : Float) : Bool := 0.0 ≤ x && x ≤ 1.0

namespace Truth

/-- Truth values agree if both numbers do. -/
instance : BEq Truth := ⟨fun a b => a.strength == b.strength && a.confidence == b.confidence⟩

/-- The truth of an atom that was added without one. -/
def default : Truth := ⟨0.8, 0.9⟩

/-- The double of a number that has to lie between 0 and 1. -/
def unit (label : String) (v : Value) : Except TruthError Float :=
  let check (x : Float) : Except TruthError Float :=
    if inUnit x then .ok x else .error (.outOfRange label x)
  match v with
  | .int n => match Number.ofInt? n with
    | some x => check x
    | none => .error .tooLarge
  | .float x => check x
  | v => .error (.notANumber label v)

/-- The truth value of two numbers. -/
def ofNumbers (strength confidence : Value) : Except TruthError Truth := do
  let s ← unit "strength" strength
  let c ← unit "confidence" confidence
  return ⟨s, c⟩

/-- The truth value that a document describes: a pair, or a record of both parts. -/
def ofValue (v : Value) : Except TruthError Truth :=
  match v with
  | .list [s, c] => ofNumbers s c
  | .record fields =>
    match Value.lookup "strength" fields, Value.lookup "confidence" fields with
    | none, _ => .error (.missingPart "strength")
    | _, none => .error (.missingPart "confidence")
    | some s, some c => ofNumbers s c
  | v => .error (.notATruth v)

/-- The truth of independent conjuncts; that of none is certain. -/
def conjoin (ts : List Truth) : Truth :=
  ts.foldl (fun acc t => ⟨acc.strength * t.strength, min acc.confidence t.confidence⟩) ⟨1.0, 1.0⟩

/-- Scales the confidence by a reliability between 0 and 1. -/
def discount (t : Truth) (reliability : Float) : Truth :=
  ⟨t.strength, t.confidence * reliability⟩

/-- The record of both parts. -/
def toValue (t : Truth) : Value :=
  .record [("strength", .float t.strength), ("confidence", .float t.confidence)]

/-- Both parts with three places. -/
def describe (t : Truth) : String :=
  "TruthValue(" ++ Number.fixed 3 t.strength ++ ", " ++ Number.fixed 3 t.confidence ++ ")"

end Truth

end Credence
