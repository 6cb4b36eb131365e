import Credence.Document.Value
/-!
# Outcomes of reasoning

Every kind of reasoning tells, beside its findings, how many steps it took, whether
a bound cut it short and whether it ran out of time.
-/

namespace Credence

/-- How a run of reasoning ended. -/
structure Outcome where
  boundReached : Bool
  incomplete : Bool
  stepsTaken : Nat
deriving Repr, DecidableEq, Inhabited

/-- A run that has not begun. -/
def Outcome.start : Outcome := ⟨false, false, 0⟩

/-- The record of a result: its kind, its findings and how the run ended. -/
def Outcome.record (o : Outcome) (kind : String) (findings : List (String × Value)) : Value :=
  .record <| ("reasoningType", .text kind) :: findings ++
    [("boundReached", .bool o.boundReached), ("incomplete", .bool o.incomplete),
      ("stepsTaken", .int (Int.ofNat o.stepsTaken))]

end Credence
