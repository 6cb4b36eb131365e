/-!
# Powers of two and of ten

The steps of binary and of decimal numbers.
-/

namespace Credence.Number

/-- Two to the power `n`. -/
def twos (n : Nat) : Nat := Nat.pow 2 n

/-- Ten to the power `n`. -/
def tens (n : Nat) : Nat := Nat.pow 10 n

theorem twos_succ (n : Nat) : twos (n + 1) = 2 * twos n := by
  simp [twos, Nat.pow_succ, Nat.mul_comm]

theorem twos_pos (n : Nat) : 0 < twos n := Nat.pow_pos (by decide)

end Credence.Number
