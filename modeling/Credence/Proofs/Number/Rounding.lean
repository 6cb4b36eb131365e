import Credence.Proofs.Number.Bits
/-!
# Rounding

The processor rounds a product by shifting its mantissa to the right, one place at a
time, with two bits that remember what fell off. The result is the quotient by a
power of two, rounded as `roundDiv` does. Rounding keeps the order of products and
leaves a number alone that needs no rounding.
-/

namespace Credence.Number

open Float.Model Float.Model.UnpackedFloat

/-! ## Rounded quotients -/

theorem roundDiv_cases (n d : Nat) :
    roundDiv n d = n / d ∧ 2 * (n % d) ≤ d ∨ roundDiv n d = n / d + 1 ∧ d ≤ 2 * (n % d) := by
  unfold roundDiv
  dsimp only
  repeat' split
  all_goals omega

theorem roundDiv_mono {m n : Nat} (d : Nat) (h : m ≤ n) :
    roundDiv m d ≤ roundDiv n d := by
  have hq : m / d ≤ n / d := Nat.div_le_div_right h
  rcases Nat.lt_or_eq_of_le hq with hlt | heq
  · rcases roundDiv_cases m d with ⟨h1, _⟩ | ⟨h1, _⟩ <;>
      rcases roundDiv_cases n d with ⟨h2, _⟩ | ⟨h2, _⟩ <;> omega
  · have hm := Nat.div_add_mod m d
    have hn := Nat.div_add_mod n d
    have hr : m % d ≤ n % d := by
      rw [heq] at hm; omega
    unfold roundDiv
    rw [heq]
    dsimp only
    repeat' split
    all_goals omega

theorem roundDiv_mul (a d : Nat) (hd : 0 < d) : roundDiv (a * d) d = a := by
  unfold roundDiv
  rw [Nat.mul_div_cancel _ hd, Nat.mul_mod_left]
  simp [hd]

theorem roundDiv_mul_mul (n d c : Nat) (hc : 0 < c) : roundDiv (n * c) (d * c) = roundDiv n d := by
  unfold roundDiv
  rw [Nat.mul_div_mul_right _ _ hc, Nat.mul_mod_mul_right]
  simp only [← Nat.mul_assoc, Nat.mul_lt_mul_right hc, gt_iff_lt]

theorem roundDiv_le {n d a : Nat} (hd : 0 < d) (h : n ≤ a * d) : roundDiv n d ≤ a := by
  rw [← roundDiv_mul a d hd]
  exact roundDiv_mono d h

theorem le_roundDiv {n d a : Nat} (hd : 0 < d) (h : a * d ≤ n) : a ≤ roundDiv n d := by
  rw [← roundDiv_mul a d hd]
  exact roundDiv_mono d h

/-! ## Shifts -/

/-- What an extended mantissa keeps of a number shifted right by some places. -/
structure Keeps (em : ExtendedMantissa) (n k : Nat) : Prop where
  mantissa : em.mantissa = n / twos k
  round : em.roundBit = true ↔ twos k ≤ 2 * (n % twos k)
  sticky : em.stickyBit = true ↔ n % twos k ≠ 0 ∧ 2 * (n % twos k) ≠ twos k

theorem keeps_shiftRightOne {em : ExtendedMantissa} {n k : Nat} (h : Keeps em n k) :
    Keeps em.shiftRightOne n (k + 1) := by
  obtain ⟨hm, hr, hs⟩ := h
  have hk := twos_pos k
  have hlt : n % twos k < twos k := Nat.mod_lt _ hk
  have hmod : n % twos (k + 1) = n % twos k + twos k * (n / twos k % 2) := by
    rw [twos_succ, Nat.mul_comm 2, Nat.mod_mul]
  have hdiv : n / twos (k + 1) = n / twos k / 2 := by
    rw [twos_succ, Nat.mul_comm 2, Nat.div_div_eq_div_mul]
  unfold ExtendedMantissa.shiftRightOne
  refine ⟨?_, ?_, ?_⟩
  · rw [hdiv, ← hm]
  · rw [hmod, twos_succ, ← hm]
    rcases Nat.mod_two_eq_zero_or_one em.mantissa with h2 | h2
    · simp [h2]; omega
    · simp [h2]
  · rw [hmod, twos_succ, ← hm, Bool.or_eq_true, hr, hs]
    rcases Nat.mod_two_eq_zero_or_one em.mantissa with h2 | h2 <;> simp only [h2] <;> omega

theorem keeps_shift (n k : Nat) :
    Keeps (ExtendedMantissa.ofMantissaAndAccuracy n .exact >>> k) n k := by
  induction k with
  | zero =>
    refine ⟨?_, ?_, ?_⟩
    · exact (Nat.div_one n).symm
    · simp [twos, Nat.mod_one, HShiftRight.hShiftRight, ExtendedMantissa.ofMantissaAndAccuracy,
        Nat.repeat]
    · simp [twos, Nat.mod_one, HShiftRight.hShiftRight, ExtendedMantissa.ofMantissaAndAccuracy,
        Nat.repeat]
  | succ k ih => exact keeps_shiftRightOne ih

theorem Keeps.rounded {em : ExtendedMantissa} {n k : Nat} (h : Keeps em n k) :
    em.roundedMantissa = roundDiv n (twos k) := by
  obtain ⟨hm, hr, hs⟩ := h
  obtain ⟨m, r, s⟩ := em
  simp only at hm hr hs
  unfold roundDiv
  cases r <;> cases s <;>
    simp only [ExtendedMantissa.roundedMantissa, ExtendedMantissa.accuracy,
      Accuracy.roundToNearestEven] <;>
    simp only [true_iff, false_iff, reduceCtorEq, Nat.not_le] at hr hs <;>
    have hk := twos_pos k <;>
    (repeat' split) <;> omega

/-! ## Rounding to a double -/

theorem targetExponent_eq (n : Nat) (e : Int) :
    Format.binary64.targetExponent (totalExponent n e) = max (n.log2 + e - 52) (-1074) := by
  show max ((n.log2 : Int) + 1 + e - 53) (-1074) = _
  congr 1
  omega

theorem roundWithAccuracy_eq {n k l : Nat} {e : Int}
    (hk : (max (n.log2 + e - 52) (-1074) - e).toNat = k)
    (hl : (max ((roundDiv n (twos k)).log2 + (e + k) - 52) (-1074) - (e + k)).toNat = l) :
    roundWithAccuracy Format.binary64 .positive n e .exact =
      if h : roundDiv n (twos k) / twos l = 0 then .zero .positive
      else .finite .positive (roundDiv n (twos k) / twos l) (e + k + l) (Nat.pos_of_ne_zero h) := by
  unfold roundWithAccuracy
  simp only [shiftToTargetExponent, shiftToExponent, targetExponent_eq, hk,
    (keeps_shift n k).rounded, hl, (keeps_shift (roundDiv n (twos k)) l).mantissa]

/-! ## Rounded products -/

/-- The places that a product of units loses when it is rounded to units again. -/
def grain (n : Nat) : Nat := max (n.log2 - 52) 1074

/-- A product of units, rounded to 53 bits and given in units. -/
def rounded (n : Nat) : Nat := roundDiv n (twos (grain n)) * twos (grain n - 1074)

theorem twos_add (a b : Nat) : twos (a + b) = twos a * twos b := Nat.pow_add 2 a b

theorem twos_le {a b : Nat} (h : a ≤ b) : twos a ≤ twos b := Nat.pow_le_pow_right (by decide) h

theorem lt_twos_grain (n : Nat) : n < twos 53 * twos (grain n) := by
  rw [← twos_add]
  refine Nat.lt_of_lt_of_le (Nat.lt_log2_self (n := n)) (twos_le ?_)
  unfold grain
  omega

theorem twos_grain_le {n : Nat} (h : 1074 < grain n) : twos 52 * twos (grain n) ≤ n := by
  have hk : grain n = n.log2 - 52 := by
    unfold grain at h ⊢
    omega
  have hn : n ≠ 0 := fun h0 => by
    rw [h0] at hk h
    rw [hk] at h
    exact absurd h (by decide)
  rw [← twos_add, hk]
  have h52 : 52 + (n.log2 - 52) = n.log2 := by omega
  rw [h52]
  exact Nat.log2_self_le hn

theorem grain_mono {m n : Nat} (h : m ≤ n) : grain m ≤ grain n := by
  have hl : m.log2 ≤ n.log2 := by
    rcases Nat.eq_zero_or_pos m with rfl | hm
    · exact Nat.zero_le _
    · exact (Nat.le_log2 (by omega)).2 (Nat.le_trans (Nat.log2_self_le (by omega)) h)
  unfold grain
  omega

/-- Rounding keeps the order of products. -/
theorem rounded_mono {m n : Nat} (h : m ≤ n) : rounded m ≤ rounded n := by
  have hg := grain_mono h
  unfold rounded
  rcases Nat.lt_or_eq_of_le hg with hlt | heq
  · have h0 : 1074 ≤ grain m := Nat.le_max_right _ _
    have hm : roundDiv m (twos (grain m)) ≤ twos 53 :=
      roundDiv_le (twos_pos _) (Nat.le_of_lt (lt_twos_grain m))
    have hn : twos 52 ≤ roundDiv n (twos (grain n)) :=
      le_roundDiv (twos_pos _) (twos_grain_le (by omega))
    calc roundDiv m (twos (grain m)) * twos (grain m - 1074)
        ≤ twos 53 * twos (grain m - 1074) := Nat.mul_le_mul_right _ hm
      _ = twos 52 * twos (grain m - 1074 + 1) := by
        rw [← twos_add, ← twos_add]
        exact congrArg twos (by omega)
      _ ≤ roundDiv n (twos (grain n)) * twos (grain n - 1074) :=
        Nat.mul_le_mul hn (twos_le (by omega))
  · rw [heq]
    exact Nat.mul_le_mul_right _ (roundDiv_mono _ h)

theorem rounded_zero : rounded 0 = 0 := by
  unfold rounded roundDiv
  simp [twos_pos]

/-- The units of a mantissa and an exponent. -/
def weight (m : Nat) (e : Int) : Nat := m * twos (e + 1074).toNat

theorem log2_mul_twos {m : Nat} (hm : m ≠ 0) (k : Nat) : (m * twos k).log2 = m.log2 + k := by
  induction k with
  | zero => simp [twos]
  | succ k ih =>
    have hne : m * twos k ≠ 0 := Nat.mul_ne_zero hm (Nat.pos_iff_ne_zero.1 (twos_pos k))
    rw [twos_succ, Nat.mul_left_comm, Nat.log2_two_mul hne, ih, Nat.add_assoc]

theorem grain_weight {m : Nat} {e : Int} (hm : 0 < m) (h : IsProper m e) :
    grain (weight m e * twos 1074) = (e + 2148).toNat := by
  obtain ⟨hlt, hl, hh, hf⟩ := h
  have hw : weight m e * twos 1074 = m * twos (e + 2148).toNat := by
    unfold weight
    rw [Nat.mul_assoc, ← twos_add]
    exact congrArg (m * twos ·) (by omega)
  have hne : m ≠ 0 := Nat.pos_iff_ne_zero.1 hm
  have hlog := log2_mul_twos hne (e + 2148).toNat
  have h52 : 52 ≤ m.log2 ↔ twos 52 ≤ m := Nat.le_log2 hne
  have h53 : m.log2 < 53 ↔ m < twos 53 := Nat.log2_lt hne
  rw [hw]
  unfold grain
  rw [hlog]
  omega

/-- A double times one is rounded to itself. -/
theorem rounded_weight {m : Nat} {e : Int} (hm : 0 < m) (h : IsProper m e) :
    rounded (weight m e * twos 1074) = weight m e := by
  have hl := h.low
  unfold rounded
  rw [grain_weight hm h]
  unfold weight
  rw [Nat.mul_assoc, ← twos_add]
  have h1 : (e + 1074).toNat + 1074 = (e + 2148).toNat := by omega
  have h2 : (e + 2148).toNat - 1074 = (e + 1074).toNat := by omega
  rw [h1, h2, roundDiv_mul _ _ (twos_pos _)]

end Credence.Number
