import Credence.Proofs.Number.Rounding
import Credence.Rule.Basic
/-!
# Doubles from zero to one

Confidences and reliabilities are doubles from zero to one. There `≤` is a linear
order up to the two zeros, as it compares whole numbers of the least double, and a
product is the product of these numbers, rounded: it stays between zero and one, is
at most either factor and keeps the order.
-/

namespace Credence.Number

open Float.Model Float.Model.UnpackedFloat

/-! ## Units -/

/-- A double that is not negative, taken apart, and its units. -/
inductive Amounts : Float.Model.UnpackedFloat → Nat → Prop
  | zero (s : Sign) : Amounts (.zero s) 0
  | finite {m : Nat} {e : Int} (hm : 0 < m) (h : IsProper m e) :
    Amounts (.finite .positive m e hm) (weight m e)

theorem weight_pos {m : Nat} {e : Int} (hm : 0 < m) : 0 < weight m e :=
  Nat.mul_pos hm (twos_pos _)

/-- Of two doubles in their proper form the one with the greater exponent is greater. -/
theorem weight_lt {m n : Nat} {e f : Int} (hm : IsProper m e) (hn : IsProper n f)
    (h : e < f) : weight m e < weight n f := by
  have hl := hm.low
  have hfull : twos 52 ≤ n := hn.full.resolve_right (by omega)
  unfold weight
  calc m * twos (e + 1074).toNat
      < twos 53 * twos (e + 1074).toNat := Nat.mul_lt_mul_of_pos_right hm.lt (twos_pos _)
    _ = twos 52 * twos ((e + 1074).toNat + 1) := by
        rw [← twos_add, ← twos_add]
        exact congrArg twos (by omega)
    _ ≤ n * twos (f + 1074).toNat := Nat.mul_le_mul hfull (twos_le (by omega))

theorem compare_weight {m n : Nat} {e f : Int} (hm : IsProper m e) (hn : IsProper n f) :
    (compare e f).then (compare m n) = compare (weight m e) (weight n f) := by
  rcases Int.lt_trichotomy e f with h | h | h
  · have hc : compare e f = .lt := compare_lt_iff_lt.2 h
    rw [hc, compare_lt_iff_lt.2 (weight_lt hm hn h)]
    rfl
  · have hc : compare e f = .eq := compare_eq_iff_eq.2 h
    rw [hc, h]
    show compare m n = compare (weight m f) (weight n f)
    unfold weight
    simp only [Nat.compare_eq_ite_lt, Nat.mul_lt_mul_right (twos_pos _)]
  · have hc : compare e f = .gt := compare_gt_iff_gt.2 h
    rw [hc, compare_gt_iff_gt.2 (weight_lt hn hm h)]
    rfl

/-- Doubles of as many units are one, but for the two zeros. -/
theorem Amounts.unique {u v : Float.Model.UnpackedFloat} {n : Nat} (hn : n ≠ 0) (hu : Amounts u n)
    (hv : Amounts v n) : u = v := by
  cases hu with
  | zero s => exact absurd rfl hn
  | @finite m e hm h =>
    generalize hw : weight m e = w at hv hn
    cases hv with
    | zero t => exact absurd rfl hn
    | @finite k f hk h' =>
      have hcmp := compare_weight h h'
      rw [hw, Nat.compare_eq_eq.2 rfl, Ordering.then_eq_eq] at hcmp
      obtain rfl : e = f := compare_eq_iff_eq.1 hcmp.1
      obtain rfl : m = k := compare_eq_iff_eq.1 hcmp.2
      rfl

/-- Doubles that are not negative compare as their units do. -/
theorem Amounts.compare_eq {u v : Float.Model.UnpackedFloat} {m n : Nat} (hu : Amounts u m)
    (hv : Amounts v n) : u.compare v = some (compare m n) := by
  cases hu with
  | zero s =>
    cases hv with
    | zero t => rfl
    | finite hn h => exact congrArg some (compare_lt_iff_lt.2 (weight_pos hn)).symm
  | finite hm h =>
    cases hv with
    | zero t => exact congrArg some (compare_gt_iff_gt.2 (weight_pos hm)).symm
    | finite hn h' => exact congrArg some (compare_weight h h')

theorem Amounts.le_iff {u v : Float.Model.UnpackedFloat} {m n : Nat} (hu : Amounts u m)
    (hv : Amounts v n) : u.le v = true ↔ m ≤ n := by
  unfold UnpackedFloat.le
  rw [hu.compare_eq hv]
  exact Nat.isLE_compare

theorem Amounts.lt_iff {u v : Float.Model.UnpackedFloat} {m n : Nat} (hu : Amounts u m)
    (hv : Amounts v n) : u.lt v = true ↔ m < n := by
  unfold UnpackedFloat.lt
  rw [hu.compare_eq hv, beq_iff_eq, Option.some_inj]
  exact compare_lt_iff_lt

theorem le_iff (x y : Float) :
    x ≤ y ↔ UnpackedFloat.le x.toModel.unpack y.toModel.unpack = true := by
  show decide (x.toModel ≤ y.toModel) = true ↔ _
  rw [decide_eq_true_iff]
  rfl

theorem lt_iff (x y : Float) :
    x < y ↔ UnpackedFloat.lt x.toModel.unpack y.toModel.unpack = true := by
  show decide (x.toModel < y.toModel) = true ↔ _
  rw [decide_eq_true_iff]
  rfl

theorem unpack_one :
    (1.0 : Float).toModel.unpack = .finite .positive (twos 52) (-52) (twos_pos 52) := rfl

theorem unpack_zero : (0.0 : Float).toModel.unpack = .zero .positive := rfl

theorem isProper_one : IsProper (twos 52) (-52) :=
  ⟨by decide, by decide, by decide, .inl (Nat.le_refl _)⟩

theorem amounts_one : Amounts (1.0 : Float).toModel.unpack (twos 1074) := by
  have hw : weight (twos 52) (-52) = twos 1074 := by
    unfold weight
    rw [← twos_add]
    rfl
  rw [unpack_one, ← hw]
  exact .finite _ isProper_one

/-- The doubles from zero to one are those of so many units. -/
theorem inUnit_iff (x : Float) :
    inUnit x = true ↔ ∃ n, Amounts x.toModel.unpack n ∧ n ≤ twos 1074 := by
  unfold inUnit
  rw [Bool.and_eq_true, decide_eq_true_iff, decide_eq_true_iff, le_iff, le_iff]
  constructor
  · rintro ⟨h0, h1⟩
    have key : ∃ n, Amounts x.toModel.unpack n := by
      rw [unpack_zero] at h0
      rw [unpack_one] at h1
      cases hx : x.toModel.unpack with
      | notANumber => rw [hx] at h0; exact absurd h0 (by decide)
      | infinity s =>
        rw [hx] at h0 h1
        cases s with
        | negative => simp [UnpackedFloat.le, UnpackedFloat.compare] at h0
        | positive => simp [UnpackedFloat.le, UnpackedFloat.compare] at h1
      | zero s => exact ⟨0, .zero s⟩
      | finite s m e hm =>
        rw [hx] at h0
        cases s with
        | negative => simp [UnpackedFloat.le, UnpackedFloat.compare] at h0
        | positive => exact ⟨_, .finite hm (isProper_of_unpack hx)⟩
    obtain ⟨n, hn⟩ := key
    exact ⟨n, hn, (hn.le_iff amounts_one).1 h1⟩
  · rintro ⟨n, hn, hle⟩
    have hz : Amounts (0.0 : Float).toModel.unpack 0 := .zero .positive
    exact ⟨(hz.le_iff hn).2 (Nat.zero_le n), (hn.le_iff amounts_one).2 hle⟩

/-! ## Products -/

theorem log2_le_of_le_twos {n k : Nat} (h : n ≤ twos k) : n.log2 ≤ k := by
  rcases Nat.eq_zero_or_pos n with rfl | hn
  · exact Nat.zero_le k
  · refine Nat.le_of_lt_succ ((Nat.log2_lt (Nat.pos_iff_ne_zero.1 hn)).2 ?_)
    exact Nat.lt_of_le_of_lt h (Nat.pow_lt_pow_right (by decide) (Nat.lt_succ_self k))

theorem le_log2_of_twos_le {n k : Nat} (h : twos k ≤ n) : k ≤ n.log2 :=
  (Nat.le_log2 (Nat.pos_iff_ne_zero.1 (Nat.lt_of_lt_of_le (twos_pos k) h))).2 h

/-- A positive number of the proper form is stored as it is. -/
theorem amounts_pack {m : Nat} {e : Int} (hm : 0 < m) (h : IsProper m e) :
    Amounts (Float.Model.pack (.finite .positive m e hm)).unpack (weight m e) := by
  rw [unpack_pack_finite _ _ _ _ h]
  exact .finite _ h

section

variable {n d k : Nat} {e : Int}

/-- Rounding the units of a number rounds its mantissa, by as many bits as do not fit. -/
theorem rounded_mul_twos (hn : 0 < n) (hd : (d : Int) = e + 2148)
    (hk : (k : Int) = max (n.log2 + e - 52) (-1074) - e) :
    rounded (n * twos d) = roundDiv n (twos k) * twos (k + d - 1074) := by
  have hg : grain (n * twos d) = k + d := by
    unfold grain
    rw [log2_mul_twos (Nat.pos_iff_ne_zero.1 hn)]
    omega
  unfold rounded
  rw [hg, twos_add, roundDiv_mul_mul _ _ _ (twos_pos d)]

/-- The rounded mantissa has 53 bits, or one more where all of them were ones; it has fewer only at
the least exponent. -/
theorem roundDiv_mantissa (hn : 0 < n) (hk : (k : Int) = max (n.log2 + e - 52) (-1074) - e) :
    roundDiv n (twos k) ≤ twos 53 ∧ (twos 52 ≤ roundDiv n (twos k) ∨ e + k = -1074) := by
  have hlt : n < twos 53 * twos k := by
    rw [← twos_add]
    exact Nat.lt_of_lt_of_le (Nat.lt_log2_self (n := n)) (twos_le (by omega))
  refine ⟨roundDiv_le (twos_pos k) (Nat.le_of_lt hlt), ?_⟩
  by_cases h : e + k = -1074
  · exact .inr h
  · refine .inl (le_roundDiv (twos_pos k) ?_)
    rw [← twos_add]
    exact Nat.le_trans (twos_le (by omega)) (Nat.log2_self_le (Nat.pos_iff_ne_zero.1 hn))

/-- A product of doubles from zero to one, rounded: its mantissa and exponent have the proper form,
and its units are the rounded product of units. -/
theorem amounts_round (hn : 0 < n) (he : -2148 ≤ e)
    (hle : (n * twos (e + 2148).toNat).log2 ≤ 2148)
    (hT : e ≤ max (n.log2 + e - 52) (-1074)) :
    Amounts (Float.Model.pack (roundWithAccuracy Format.binary64 .positive n e .exact)).unpack
      (rounded (n * twos (e + 2148).toNat)) := by
  generalize hd : (e + 2148).toNat = d at hle ⊢
  rw [log2_mul_twos (Nat.pos_iff_ne_zero.1 hn)] at hle
  obtain ⟨k, hk⟩ : ∃ k, (max (n.log2 + e - 52) (-1074) - e).toNat = k := ⟨_, rfl⟩
  have hr : rounded (n * twos d) = roundDiv n (twos k) * twos (k + d - 1074) :=
    rounded_mul_twos hn (e := e) (by omega) (by omega)
  obtain ⟨hm53, hfull⟩ := roundDiv_mantissa (k := k) (e := e) hn (by omega)
  generalize hm : roundDiv n (twos k) = m at hr hm53 hfull
  rcases Nat.lt_or_eq_of_le hm53 with hm' | hm'
  · -- The rounded mantissa still fits: nothing is shifted again.
    have hlog : m.log2 ≤ 52 := by
      rcases Nat.eq_zero_or_pos m with h0 | h0
      · rw [h0]; decide
      · exact Nat.le_of_lt_succ ((Nat.log2_lt (Nat.pos_iff_ne_zero.1 h0)).2 hm')
    have hl : (max ((roundDiv n (twos k)).log2 + (e + k) - 52) (-1074) - (e + k)).toNat = 0 := by
      rw [hm]; omega
    have hd1 : m / twos 0 = m := Nat.div_one m
    rw [roundWithAccuracy_eq hk hl, hr]
    simp only [hm, hd1]
    split
    · next h0 => rw [h0, Nat.zero_mul, unpack_pack_zero]; exact .zero _
    · next h0 =>
      have hw : m * twos (k + d - 1074) = weight m (e + k + (0 : Nat)) := by
        unfold weight
        exact congrArg (m * twos ·) (by omega)
      rw [hw]
      exact amounts_pack _ ⟨hm', by omega, by omega, hfull.imp id fun h => by omega⟩
  · -- Rounding made one bit too many: the mantissa is halved and the exponent is one more.
    have hlog : m.log2 = 53 := by
      rw [hm']; exact Nat.log2_two_pow
    have hl : (max ((roundDiv n (twos k)).log2 + (e + k) - 52) (-1074) - (e + k)).toNat = 1 := by
      rw [hm]; omega
    have hd1 : m / twos 1 = twos 52 := by
      rw [hm']; decide
    have hw : m * twos (k + d - 1074) = weight (twos 52) (e + k + (1 : Nat)) := by
      unfold weight
      rw [hm', ← twos_add, ← twos_add]
      exact congrArg twos (by omega)
    rw [roundWithAccuracy_eq hk hl, hr, hw]
    simp only [hm, hd1]
    rw [dif_neg (by decide)]
    exact amounts_pack _ ⟨by decide, by omega, by omega, .inl (Nat.le_refl _)⟩

end

theorem mul_toModel (x y : Float) :
    (x * y).toModel =
      Float.Model.pack (UnpackedFloat.mul Format.binary64 x.toModel.unpack y.toModel.unpack) :=
  rfl

/-- The product of two doubles from zero to one has the rounded product of their units. -/
theorem amounts_mul {u v : Float.Model.UnpackedFloat} {m n : Nat} (hu : Amounts u m)
    (hv : Amounts v n) (hm : m ≤ twos 1074) (hn : n ≤ twos 1074) :
    Amounts (Float.Model.pack (UnpackedFloat.mul Format.binary64 u v)).unpack
      (rounded (m * n)) := by
  cases hu with
  | zero s =>
    rw [Nat.zero_mul, rounded_zero]
    cases hv with
    | zero t => exact unpack_pack_zero (s * t) ▸ .zero _
    | finite hn h => exact unpack_pack_zero (s * .positive) ▸ .zero _
  | @finite m e hm0 h =>
    cases hv with
    | zero t =>
      rw [Nat.mul_zero, rounded_zero]
      exact unpack_pack_zero (.positive * t) ▸ .zero _
    | @finite n f hn0 h' =>
      have he := h.low
      have hf := h'.low
      have hw : weight m e * weight n f = m * n * twos (e + f + 2148).toNat := by
        have hd : (e + f + 2148).toNat = (e + 1074).toNat + (f + 1074).toNat := by omega
        unfold weight
        rw [hd, twos_add]
        ring
      have hpos : 0 < m * n := Nat.mul_pos hm0 hn0
      have hlog : (m * n * twos (e + f + 2148).toNat).log2 ≤ 2148 := by
        have hle : m * n * twos (e + f + 2148).toNat ≤ twos 2148 := by
          rw [← hw, show 2148 = 1074 + 1074 from rfl, twos_add]
          exact Nat.mul_le_mul hm hn
        exact log2_le_of_le_twos hle
      rw [hw]
      refine amounts_round hpos (by omega) hlog ?_
      -- A full mantissa gives the product 52 bits or more; without one both exponents are the least.
      rcases h.full with hm52 | rfl
      · have := le_log2_of_twos_le (Nat.le_trans hm52 (Nat.le_mul_of_pos_right m hn0))
        omega
      · rcases h'.full with hn52 | rfl
        · have := le_log2_of_twos_le (Nat.le_trans hn52 (Nat.le_mul_of_pos_left n hm0))
          omega
        · omega

/-! ## The unit interval -/

theorem Amounts.rounded_eq {u : Float.Model.UnpackedFloat} {n : Nat} (h : Amounts u n) :
    rounded (n * twos 1074) = n := by
  cases h with
  | zero s => rw [Nat.zero_mul, rounded_zero]
  | finite hm h => exact rounded_weight hm h

/-- A product is between zero and one, and at most its first factor. -/
theorem inUnit_mul {x y : Float} (hx : inUnit x = true) (hy : inUnit y = true) :
    inUnit (x * y) = true ∧ x * y ≤ x := by
  obtain ⟨m, hm, hm1⟩ := (inUnit_iff x).1 hx
  obtain ⟨n, hn, hn1⟩ := (inUnit_iff y).1 hy
  have hmul := amounts_mul hm hn hm1 hn1
  rw [← mul_toModel] at hmul
  have hle : rounded (m * n) ≤ m := by
    calc rounded (m * n) ≤ rounded (m * twos 1074) := rounded_mono (Nat.mul_le_mul_left m hn1)
      _ = m := hm.rounded_eq
  exact ⟨(inUnit_iff _).2 ⟨_, hmul, Nat.le_trans hle hm1⟩, (le_iff _ _).2 ((hmul.le_iff hm).2 hle)⟩

/-- Scaling by a double from zero to one keeps the order. -/
theorem mul_le_mul_of_inUnit {x y r : Float} (hx : inUnit x = true) (hy : inUnit y = true)
    (hr : inUnit r = true) (h : x ≤ y) : x * r ≤ y * r := by
  obtain ⟨m, hm, hm1⟩ := (inUnit_iff x).1 hx
  obtain ⟨n, hn, hn1⟩ := (inUnit_iff y).1 hy
  obtain ⟨k, hk, hk1⟩ := (inUnit_iff r).1 hr
  have hle : m ≤ n := (hm.le_iff hn).1 ((le_iff x y).1 h)
  have h1 := amounts_mul hm hk hm1 hk1
  have h2 := amounts_mul hn hk hn1 hk1
  rw [← mul_toModel] at h1 h2
  exact (le_iff _ _).2 ((h1.le_iff h2).2 (rounded_mono (Nat.mul_le_mul_right k hle)))

theorem le_refl_of_inUnit {x : Float} (hx : inUnit x = true) : x ≤ x := by
  obtain ⟨m, hm, _⟩ := (inUnit_iff x).1 hx
  exact (le_iff x x).2 ((hm.le_iff hm).2 (Nat.le_refl m))

/-- Any double that is at most one from zero to one is itself of so many units, or below all of
them. -/
theorem amounts_or_below {x : Float} {v : Float.Model.UnpackedFloat} {n : Nat} (hv : Amounts v n)
    (h : UnpackedFloat.le x.toModel.unpack v = true) :
    (∃ m, Amounts x.toModel.unpack m) ∨
      ∀ w k, Amounts w k → UnpackedFloat.le x.toModel.unpack w = true := by
  cases hx : x.toModel.unpack with
  | notANumber =>
    rw [hx] at h
    cases hv <;> simp [UnpackedFloat.le, UnpackedFloat.compare] at h
  | zero s => exact .inl ⟨0, .zero s⟩
  | infinity s =>
    rw [hx] at h
    cases s with
    | positive => cases hv <;> simp [UnpackedFloat.le, UnpackedFloat.compare] at h
    | negative =>
      refine .inr fun w k hw => ?_
      cases hw <;> simp [UnpackedFloat.le, UnpackedFloat.compare]
  | finite s m e hm =>
    cases s with
    | positive => exact .inl ⟨_, .finite hm (isProper_of_unpack hx)⟩
    | negative =>
      refine .inr fun w k hw => ?_
      cases hw <;> simp [UnpackedFloat.le, UnpackedFloat.compare]

/-- Below doubles from zero to one `≤` is transitive, whatever is compared with them. -/
theorem le_of_le_of_inUnit {x y z : Float} (hy : inUnit y = true) (hz : inUnit z = true)
    (h : x ≤ y) (h' : y ≤ z) : x ≤ z := by
  obtain ⟨n, hn, _⟩ := (inUnit_iff y).1 hy
  obtain ⟨k, hk, _⟩ := (inUnit_iff z).1 hz
  rw [le_iff] at h h' ⊢
  rcases amounts_or_below hn h with ⟨m, hm⟩ | hall
  · exact (hm.le_iff hk).2 (Nat.le_trans ((hm.le_iff hn).1 h) ((hn.le_iff hk).1 h'))
  · exact hall _ k hk

theorem le_total_of_inUnit {x y : Float} (hx : inUnit x = true) (hy : inUnit y = true) :
    x ≤ y ∨ y ≤ x := by
  obtain ⟨m, hm, _⟩ := (inUnit_iff x).1 hx
  obtain ⟨n, hn, _⟩ := (inUnit_iff y).1 hy
  rw [le_iff, le_iff, hm.le_iff hn, hn.le_iff hm]
  exact Nat.le_total m n

theorem lt_iff_not_le_of_inUnit {x y : Float} (hx : inUnit x = true) (hy : inUnit y = true) :
    x < y ↔ ¬ y ≤ x := by
  obtain ⟨m, hm, _⟩ := (inUnit_iff x).1 hx
  obtain ⟨n, hn, _⟩ := (inUnit_iff y).1 hy
  rw [lt_iff, le_iff, hm.lt_iff hn, hn.le_iff hm]
  exact Nat.not_le.symm

theorem le_of_lt_of_inUnit {x y : Float} (hx : inUnit x = true) (hy : inUnit y = true)
    (h : x < y) : x ≤ y :=
  (le_total_of_inUnit hx hy).resolve_right ((lt_iff_not_le_of_inUnit hx hy).1 h)

theorem le_of_not_lt_of_inUnit {x y : Float} (hx : inUnit x = true) (hy : inUnit y = true)
    (h : ¬ y < x) : x ≤ y :=
  Classical.not_not.1 fun hle => h ((lt_iff_not_le_of_inUnit hy hx).2 hle)

theorem lt_of_le_of_lt_of_inUnit {x y z : Float} (hx : inUnit x = true) (hy : inUnit y = true)
    (hz : inUnit z = true) (h : x ≤ y) (h' : y < z) : x < z :=
  (lt_iff_not_le_of_inUnit hx hz).2 fun hle =>
    (lt_iff_not_le_of_inUnit hy hz).1 h' (le_of_le_of_inUnit hx hy hle h)

/-! ## Reliabilities -/

theorem Dyadic.ratio_cases (negative : Bool) (m : Nat) (e : Int) :
    (0 ≤ e ∧ Dyadic.ratio ⟨negative, m, e⟩ = (m * twos e.toNat, 1)) ∨
      (e < 0 ∧ Dyadic.ratio ⟨negative, m, e⟩ = (m, twos (-e).toNat)) := by
  unfold Dyadic.ratio
  by_cases he : e ≥ 0
  · exact .inl ⟨he, if_pos he⟩
  · exact .inr ⟨by omega, if_neg he⟩

theorem Dyadic.ratio_le_one {m : Nat} {e : Int} (he : -1074 ≤ e) {negative : Bool}
    (h : (Dyadic.ratio ⟨negative, m, e⟩).1 ≤ (Dyadic.ratio ⟨negative, m, e⟩).2) :
    weight m e ≤ twos 1074 := by
  unfold weight
  rcases Dyadic.ratio_cases negative m e with ⟨h0, hr⟩ | ⟨h0, hr⟩ <;> rw [hr] at h
  · have hd : (e + 1074).toNat = e.toNat + 1074 := by omega
    rw [hd, twos_add, ← Nat.mul_assoc]
    calc m * twos e.toNat * twos 1074 ≤ 1 * twos 1074 := Nat.mul_le_mul_right _ h
      _ = twos 1074 := Nat.one_mul _
  · have hd : (1074 : Nat) = (-e).toNat + (e + 1074).toNat := by omega
    calc m * twos (e + 1074).toNat
        ≤ twos (-e).toNat * twos (e + 1074).toNat := Nat.mul_le_mul_right _ h
      _ = twos 1074 := by rw [← twos_add, ← hd]

theorem Dyadic.ratio_pos {m : Nat} (hm : 0 < m) (negative : Bool) (e : Int) :
    0 < (Dyadic.ratio ⟨negative, m, e⟩).1 := by
  rcases Dyadic.ratio_cases negative m e with ⟨_, hr⟩ | ⟨_, hr⟩ <;> rw [hr]
  · exact Nat.mul_pos hm (twos_pos _)
  · exact hm

/-- A reliability between zero and one is a double between zero and one. -/
theorem inUnit_toFloat (a : Scalar) (h : a.isUnit = true) : inUnit a.toFloat = true := by
  unfold Scalar.isUnit at h
  rw [Bool.and_eq_true] at h
  obtain ⟨h0, h1⟩ := h
  cases a with
  | whole n =>
    simp [Scalar.isAtMost, Scalar.ratio?] at h0 h1
    obtain rfl | rfl : n = 0 ∨ n = 1 := by omega
    · decide +kernel
    · decide +kernel
  | flag b => cases b <;> decide +kernel
  | real x =>
    simp only [Scalar.isAtMost, Scalar.ratio?, Scalar.toFloat, Number.ratio?, classify_eq] at h0 h1
    refine (inUnit_iff x).2 ?_
    cases hx : x.toModel.unpack with
    | zero s => exact ⟨0, .zero s, Nat.zero_le _⟩
    | notANumber =>
      rw [hx] at h0
      simp [classOf, lt_iff, hx, unpack_zero, UnpackedFloat.lt, UnpackedFloat.compare] at h0
    | infinity s =>
      rw [hx] at h0 h1
      cases s with
      | negative =>
        simp [classOf, lt_iff, hx, unpack_zero, UnpackedFloat.lt, UnpackedFloat.compare] at h0
      | positive =>
        simp [classOf, lt_iff, hx, unpack_zero, UnpackedFloat.lt, UnpackedFloat.compare] at h1
    | finite s m e hm =>
      rw [hx] at h0 h1
      have hp := isProper_of_unpack hx
      cases s with
      | negative =>
        have hpos := Dyadic.ratio_pos hm true e
        simp only [classOf, isMinus] at h0
        simp at h0
        omega
      | positive =>
        have hle : (Dyadic.ratio ⟨false, m, e⟩).1 ≤ (Dyadic.ratio ⟨false, m, e⟩).2 := by
          simp only [classOf, isMinus] at h1
          simp at h1
          omega
        exact ⟨weight m e, .finite hm hp, Dyadic.ratio_le_one hp.low hle⟩

end Credence.Number
