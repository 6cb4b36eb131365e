/-!
# Deadlines

A deadline is polled between steps. It reads a clock only if a time is set, and each
reading of the clock is a new one: a clock says how many seconds after the start its
`n`-th reading falls.
-/

namespace Credence

/-- The seconds between the start and the `n`-th reading after it. -/
abbrev Clock := Nat → Float

/-- A time allowed and the clock that measures it. -/
structure Deadline where
  timeout : Option Float
  clock : Clock

namespace Deadline

/-- Polls a deadline after `n` readings: whether the time is over, and the readings since. -/
def poll (d : Deadline) (n : Nat) : Bool × Nat :=
  match d.timeout with
  | none => (false, n)
  | some t => (d.clock (n + 1) ≥ t, n + 1)

/-- The milliseconds since the start, as one more reading after `n`. -/
def elapsed (d : Deadline) (n : Nat) : Float × Nat := (d.clock (n + 1) * 1000, n + 1)

/-- Without a time a deadline is never over and reads nothing. -/
theorem poll_none (clock : Clock) (n : Nat) : (Deadline.mk none clock).poll n = (false, n) := rfl

end Deadline

end Credence
