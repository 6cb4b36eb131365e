import Credence.Proofs.Number.Rounding
/-!
# The range of the doubles

The largest double lies half a step below a power of two, and so does the least number
that is rounded beyond it. Every integer of a smaller size has a double.
-/

namespace Credence.Number

/-- The least number that is rounded beyond the largest double. -/
def beyond : Nat := twos 1024 - twos 970

variable {n : Nat}

theorem log2_le_of_lt_beyond (h : n < beyond) : n.log2 ≤ 1023 := by
  by_contra hlog
  have hn : n ≠ 0 := fun h0 => hlog (by rw [h0]; decide)
  have hle : twos 1024 ≤ n := Nat.le_trans (twos_le (by omega)) (Nat.log2_self_le hn)
  exact absurd h (Nat.not_lt.2 (Nat.le_trans (Nat.sub_le _ _) hle))

/-! ## Mantissas -/

/-- The mantissa of a positive integer, with all its places. -/
def mantissa (n : Nat) : Nat :=
  if 52 ≤ n.log2 then roundDiv n (twos (n.log2 - 52)) else n * twos (52 - n.log2)

theorem mantissa_le (n : Nat) : mantissa n ≤ twos 53 := by
  have hlt : n < twos (n.log2 + 1) := Nat.lt_log2_self
  unfold mantissa
  split
  · refine roundDiv_le (twos_pos _) (Nat.le_of_lt ?_)
    rw [← twos_add, show 53 + (n.log2 - 52) = n.log2 + 1 by omega]
    exact hlt
  · calc n * twos (52 - n.log2)
        ≤ twos (n.log2 + 1) * twos (52 - n.log2) := Nat.mul_le_mul_right _ (Nat.le_of_lt hlt)
      _ = twos 53 := by
        rw [← twos_add]
        exact congrArg twos (by omega)

/-- Below the bound the largest exponent gets no mantissa that is rounded up to one more place. -/
theorem mantissa_lt (h : n < beyond) (hk : n.log2 = 1023) : mantissa n < twos 53 := by
  have hstep : twos 971 = 2 * twos 970 := twos_succ 970
  have hsplit : twos 1024 = twos 53 * twos 971 := twos_add 53 971
  have hlt : n < twos 53 * twos 971 - twos 970 := by
    rw [← hsplit]
    exact h
  have hquot : n / twos 971 < twos 53 := by
    refine Nat.div_lt_of_lt_mul ?_
    rw [Nat.mul_comm]
    exact Nat.lt_of_lt_of_le hlt (Nat.sub_le _ _)
  unfold mantissa
  rw [hk, if_pos (by decide), show 1023 - 52 = 971 from rfl]
  rcases roundDiv_cases n (twos 971) with ⟨heq, -⟩ | ⟨heq, hrest⟩
  · rwa [heq]
  · by_contra hup
    have hlast : n / twos 971 + 1 = twos 53 := by omega
    have hn := Nat.div_add_mod n (twos 971)
    have hall : twos 971 * (n / twos 971) + twos 971 = twos 53 * twos 971 := by
      rw [← hlast, Nat.add_mul, Nat.one_mul, Nat.mul_comm]
    omega

/-! ## Bits -/

/-- The bits of an integer are its exponent and its mantissa. -/
theorem bitsOfRatio_one (hn : n ≠ 0) (hk : n.log2 ≤ 1023) :
    bitsOfRatio n 1 = min ((n.log2 + 1022) * twos 52 + mantissa n) (2047 * twos 52) := by
  have hself : ¬ n < twos n.log2 := Nat.not_lt.2 (Nat.log2_self_le hn)
  have hround : ∀ m, roundDiv m 1 = m := fun m => by
    have := roundDiv_mul m 1 Nat.one_pos
    rwa [Nat.mul_one] at this
  have hq : max ((n.log2 : Int) - 52) (-1074) = n.log2 - 52 := max_eq_left (by omega)
  have hexp : ((n.log2 : Int) - 52 + 1074).toNat = n.log2 + 1022 := by omega
  have hpos : ((n.log2 : Int) - 52).toNat = n.log2 - 52 := by omega
  have hneg : (-((n.log2 : Int) - 52)).toNat = 52 - n.log2 := by omega
  have hcond : ((n.log2 : Int) - 52 ≥ 0) = (52 ≤ n.log2) := propext (by omega)
  have hnot : ¬ (n.log2 : Int) - 52 = -1074 := by omega
  have hbelow : ¬ n.log2 + 1022 > 2046 := by omega
  unfold bitsOfRatio mantissa
  rw [if_neg (by simp [hn])]
  simp only [show Nat.log2 1 = 0 from rfl, Int.ofNat_eq_natCast, Nat.cast_zero, sub_zero,
    Nat.one_mul, Int.toNat_natCast, hself, ge_iff_le, Int.natCast_nonneg, if_true, decide_false,
    Bool.false_eq_true, if_false, hq, hexp, hpos, hneg, hnot, hbelow, hround]
  simp only [← ge_iff_le, hcond]

theorem bitsOfRatio_lt (h : n < beyond) : bitsOfRatio n 1 < 2047 * twos 52 := by
  have hpos := twos_pos 52
  have hdouble : twos 53 = 2 * twos 52 := twos_succ 52
  by_cases hn : n = 0
  · rw [hn, show bitsOfRatio 0 1 = 0 from rfl]
    omega
  have hk := log2_le_of_lt_beyond h
  rw [bitsOfRatio_one hn hk]
  refine Nat.lt_of_le_of_lt (Nat.min_le_left _ _) ?_
  rcases Nat.lt_or_eq_of_le hk with hlt | heq
  · have hm := mantissa_le n
    have hexp : (n.log2 + 1022) * twos 52 ≤ 2044 * twos 52 := Nat.mul_le_mul_right _ (by omega)
    omega
  · have hm := mantissa_lt h heq
    rw [heq]
    omega

/-- Every integer of a size below the bound has a double. -/
theorem isSome_ofInt? {i : Int} (h : i.natAbs < beyond) : (ofInt? i).isSome = true := by
  unfold ofInt? ofRatio
  dsimp only
  rw [if_neg (Nat.not_le.2 (bitsOfRatio_lt h))]
  rfl

end Credence.Number
