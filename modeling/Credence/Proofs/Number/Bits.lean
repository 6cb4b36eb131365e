import Credence.Number.Mean
import Mathlib
/-!
# The parts of a double

The bits of a double are a sign, eleven bits of exponent and fifty-two of mantissa.
`classify` reads them from a number; the arithmetic of the processor is described on
doubles taken apart. Both see the same double, and what is taken apart in its proper
form and put together again is what it was.
-/

namespace Credence.Number

open Float.Model Float.Model.UnpackedFloat

/-! ## Bits -/

theorem bitVec_eq_iff {w : Nat} (x : BitVec w) (n : Nat) (hn : n < 2 ^ w) :
    x = BitVec.ofNat w n ↔ x.toNat = n := by
  rw [← BitVec.toNat_inj, BitVec.toNat_ofNat, Nat.mod_eq_of_lt hn]

theorem toNat_append_one {w : Nat} (v : BitVec w) : (1#1 ++ v).toNat = 2 ^ w + v.toNat := by
  rw [BitVec.toNat_append, ← Nat.shiftLeft_add_eq_or_of_lt v.isLt]
  simp [Nat.shiftLeft_eq]

theorem toNat_unpackMantissa (b : BitVec 64) :
    (@unpackMantissa Format.binary64 b).toNat = b.toNat % twos 52 := by
  simp [unpackMantissa, twos]

theorem toNat_unpackExponent (b : BitVec 64) :
    (@unpackExponent Format.binary64 b).toNat = b.toNat / twos 52 % twos 11 := by
  simp [unpackExponent, Nat.shiftRight_eq_div_pow, twos]

theorem toNat_unpackSign (b : BitVec 64) :
    (@unpackSign Format.binary64 b).toNat = b.toNat / twos 63 % 2 := by
  simp [unpackSign, Nat.shiftRight_eq_div_pow, twos]

/-- The sign of the bits of a double. -/
def signOf (b : BitVec 64) : Sign := Sign.ofBitVec (@unpackSign Format.binary64 b)

/-- The five ways in which the bits of a double come apart. -/
theorem unpack_cases (b : BitVec 64) :
    let exponent := b.toNat / twos 52 % twos 11
    let fraction := b.toNat % twos 52
    let parts := UnpackedFloat.unpack Format.binary64 b
    (exponent = 2047 ∧ fraction = 0 ∧ parts = .infinity (signOf b)) ∨
    (exponent = 2047 ∧ fraction ≠ 0 ∧ parts = .notANumber) ∨
    (exponent = 0 ∧ fraction = 0 ∧ parts = .zero (signOf b)) ∨
    (exponent = 0 ∧ fraction ≠ 0 ∧ ∃ h, parts = .finite (signOf b) fraction (-1074) h) ∨
    (exponent ≠ 2047 ∧ exponent ≠ 0 ∧ ∃ h,
      parts = .finite (signOf b) (twos 52 + fraction) (Int.ofNat exponent - 1075) h) := by
  intro exponent fraction parts
  have hexponent : (@unpackExponent Format.binary64 b).toNat = exponent := toNat_unpackExponent b
  have hfraction : (@unpackMantissa Format.binary64 b).toNat = fraction := toNat_unpackMantissa b
  have he : @unpackExponent Format.binary64 b = -1#11 ↔ exponent = 2047 := by
    rw [← hexponent]
    exact bitVec_eq_iff _ 2047 (by decide)
  have hz : @unpackExponent Format.binary64 b = 0#11 ↔ exponent = 0 := by
    rw [← hexponent]
    exact bitVec_eq_iff _ 0 (by decide)
  have hm : @unpackMantissa Format.binary64 b = 0#52 ↔ fraction = 0 := by
    rw [← hfraction]
    exact bitVec_eq_iff _ 0 (by decide)
  unfold parts UnpackedFloat.unpack
  by_cases ce : @unpackExponent Format.binary64 b = -1#11
  · by_cases cm : @unpackMantissa Format.binary64 b = 0#52
    · refine Or.inl ⟨he.1 ce, hm.1 cm, ?_⟩
      simp only [if_pos ce, if_pos cm]
      rfl
    · refine Or.inr (Or.inl ⟨he.1 ce, fun h => cm (hm.2 h), ?_⟩)
      simp only [if_pos ce, if_neg cm]
  · by_cases cz : @unpackExponent Format.binary64 b = 0#11
    · by_cases cm : @unpackMantissa Format.binary64 b = 0#52
      · refine Or.inr (Or.inr (Or.inl ⟨hz.1 cz, hm.1 cm, ?_⟩))
        simp only [if_neg ce, if_pos cz, dif_pos cm]
        rfl
      · refine Or.inr (Or.inr (Or.inr (Or.inl ⟨hz.1 cz, fun h => cm (hm.2 h),
          Nat.pos_of_ne_zero fun h => cm (hm.2 h), ?_⟩)))
        simp only [if_neg ce, if_pos cz, dif_neg cm]
        rw [UnpackedFloat.finite.injEq, toNat_unpackMantissa, toNat_unpackExponent]
        exact ⟨rfl, rfl, congrArg (fun n : Nat => (n : Int) - 1075 + 1) (hz.1 cz)⟩
    · refine Or.inr (Or.inr (Or.inr (Or.inr ⟨fun h => ce (he.2 h), fun h => cz (hz.2 h),
        Nat.add_pos_left (twos_pos 52) _, ?_⟩)))
      simp only [if_neg ce, if_neg cz]
      rw [UnpackedFloat.finite.injEq, toNat_append_one, toNat_unpackMantissa, toNat_unpackExponent]
      exact ⟨rfl, rfl, rfl⟩

/-! ## What the parts stand for -/

/-- Whether a sign is the minus. -/
def isMinus : Sign → Bool
  | .negative => true
  | .positive => false

theorem isMinus_signOf (b : BitVec 64) :
    isMinus (signOf b) = decide (b.toNat / twos 63 % 2 = 1) := by
  rw [← toNat_unpackSign]
  unfold signOf
  generalize @unpackSign Format.binary64 b = s
  have hs : s = 0#1 ∨ s = 1#1 := by
    have := s.isLt
    rcases (show s.toNat = 0 ∨ s.toNat = 1 by omega) with h | h
    · exact .inl (BitVec.eq_of_toNat_eq h)
    · exact .inr (BitVec.eq_of_toNat_eq h)
  rcases hs with rfl | rfl <;> rfl

/-- What a double stands for once it is taken apart. -/
def classOf : Float.Model.UnpackedFloat → DoubleClass
  | .infinity s => .infinite (isMinus s)
  | .notANumber => .nan
  | .zero s => .finite ⟨isMinus s, 0, -1074⟩
  | .finite s m e _ => .finite ⟨isMinus s, m, e⟩

/-- Reading a double from its bits agrees with taking it apart. -/
theorem classify_eq (x : Float) : classify x = classOf x.toModel.unpack := by
  show classOfBits x.toModel.toBits.toBitVec.toNat =
    classOf (UnpackedFloat.unpack Format.binary64 x.toModel.toBits.toBitVec)
  generalize x.toModel.toBits.toBitVec = b
  have hs := isMinus_signOf b
  unfold classOfBits
  rcases unpack_cases b with ⟨he, hm, h⟩ | ⟨he, hm, h⟩ | ⟨he, hm, h⟩ | ⟨he, hm, _, h⟩ |
    ⟨he, hz, _, h⟩
  · simp only [h, classOf, he, hm, hs, if_true]
  · simp only [h, classOf, he, hm, if_true, if_false]
  · simp [h, classOf, he, hm, hs]
  · simp [h, classOf, he, hs]
  · simp only [h, classOf, he, hz, hs, if_false]

/-! ## The proper form -/

/-- The one form of a mantissa and an exponent that a double keeps: all 53 bits are used unless the
exponent is the least one. -/
structure IsProper (m : Nat) (e : Int) : Prop where
  lt : m < twos 53
  low : -1074 ≤ e
  high : e ≤ 971
  full : twos 52 ≤ m ∨ e = -1074

/-- A double comes apart in its proper form. -/
theorem isProper_of_unpack {b : BitVec 64} {s : Sign} {m : Nat} {e : Int} {hm : 0 < m}
    (h : UnpackedFloat.unpack Format.binary64 b = .finite s m e hm) : IsProper m e := by
  have hlt : b.toNat % twos 52 < twos 52 := Nat.mod_lt _ (twos_pos 52)
  have he : b.toNat / twos 52 % twos 11 < 2048 := Nat.mod_lt _ (twos_pos 11)
  have h53 : twos 53 = 2 * twos 52 := twos_succ 52
  rcases unpack_cases b with ⟨_, _, hu⟩ | ⟨_, _, hu⟩ | ⟨_, _, hu⟩ | ⟨_, _, _, hu⟩ | ⟨_, _, _, hu⟩ <;>
    rw [hu] at h
  · cases h
  · cases h
  · cases h
  · obtain ⟨-, rfl, rfl⟩ := UnpackedFloat.finite.inj h
    exact ⟨by omega, by omega, by omega, .inr rfl⟩
  · obtain ⟨-, rfl, rfl⟩ := UnpackedFloat.finite.inj h
    rw [Int.ofNat_eq_natCast]
    exact ⟨by omega, by omega, by omega, .inl (Nat.le_add_right _ _)⟩

/-- A double is told by its parts. -/
theorem eq_of_unpack {x y : Float} (h : x.toModel.unpack = y.toModel.unpack) : x = y := by
  have hbits : x.toModel.toBits.toBitVec = y.toModel.toBits.toBitVec :=
    (unpack_inj_of_valid x.toModel.valid y.toModel.valid).1 h
  exact Float.toBits_inj.1 (UInt64.toBitVec_inj.1 hbits)

theorem log2_eq_iff {m : Nat} (hm : 0 < m) (hlt : m < twos 53) :
    m.log2 + 1 = 53 ↔ twos 52 ≤ m := by
  have hne : m ≠ 0 := Nat.pos_iff_ne_zero.1 hm
  have h52 : 52 ≤ m.log2 ↔ twos 52 ≤ m := Nat.le_log2 hne
  have h53 : m.log2 < 53 ↔ m < twos 53 := Nat.log2_lt hne
  omega

theorem unpack_pack_zero (s : Sign) : (Float.Model.pack (.zero s)).unpack = .zero s := by
  cases s <;> rfl

/-- What is put together in its proper form comes apart in the same form. -/
theorem unpack_pack_finite (s : Sign) (m : Nat) (e : Int) (hm : 0 < m) (h : IsProper m e) :
    (Float.Model.pack (.finite s m e hm)).unpack = .finite s m e hm := by
  show UnpackedFloat.unpack Format.binary64
    (UnpackedFloat.pack Format.binary64 (.finite s m e hm)) = _
  obtain ⟨hlt, hl, hh, hf⟩ := h
  have hbias : (Format.binary64.exponentBias : Int) +
      (Format.binary64.mantissaBitsWithoutImplicit : Nat) = 1075 := rfl
  have hexp : (e + Format.binary64.exponentBias +
      Format.binary64.mantissaBitsWithoutImplicit).toNat = (e + 1075).toNat := by
    rw [Int.add_assoc, hbias]
  have hsmall : ¬ 2 ^ Format.binary64.exponentBits ≤ (e + 1075).toNat + 1 := by
    show ¬ 2048 ≤ (e + 1075).toNat + 1
    omega
  have hbits : Format.binary64.mantissaBits = 53 := rfl
  unfold UnpackedFloat.pack
  simp only [hexp, if_neg hsmall, hbits, log2_eq_iff hm hlt]
  by_cases c : twos 52 ≤ m
  · -- The leading bit is left out.
    have he : (BitVec.ofNat 11 (e + 1075).toNat).toNat = (e + 1075).toNat := by
      rw [BitVec.toNat_ofNat]
      omega
    have ce : ¬ BitVec.ofNat 11 (e + 1075).toNat = -1#11 := fun h => by
      have := (bitVec_eq_iff _ 2047 (by decide)).1 h
      omega
    have cz : ¬ BitVec.ofNat 11 (e + 1075).toNat = 0#11 := fun h => by
      have := (bitVec_eq_iff _ 0 (by decide)).1 h
      omega
    rw [if_pos c]
    unfold UnpackedFloat.unpack
    simp only [unpackExponent_packComponents, unpackMantissa_packComponents,
      unpackSign_packComponents, Sign.ofBitVec_toBitVec, if_neg ce, if_neg cz, hbias]
    rw [UnpackedFloat.finite.injEq, toNat_append_one, he, BitVec.toNat_ofNat]
    refine ⟨rfl, ?_, by omega⟩
    show twos 52 + m % twos 52 = m
    have h53 : twos 53 = twos 52 + twos 52 := by rw [twos_succ, Nat.two_mul]
    rw [Nat.mod_eq_sub_mod c, Nat.mod_eq_of_lt (by omega)]
    omega
  · -- The exponent is the least one and the mantissa is kept as it is.
    have hmant : (BitVec.ofNat 52 m).toNat = m := by
      rw [BitVec.toNat_ofNat]
      exact Nat.mod_eq_of_lt (Nat.lt_of_not_le c)
    have ce : ¬ 0#11 = -1#11 := by decide
    have cm : ¬ BitVec.ofNat 52 m = 0#52 := fun h => by
      have := (bitVec_eq_iff _ 0 (by decide)).1 h
      omega
    rw [if_neg c]
    unfold UnpackedFloat.unpack
    simp only [unpackExponent_packComponents, unpackMantissa_packComponents,
      unpackSign_packComponents, Sign.ofBitVec_toBitVec, if_neg ce, dif_neg cm, hbias, if_true]
    rw [UnpackedFloat.finite.injEq]
    have he := hf.resolve_left c
    exact ⟨rfl, hmant, by rw [he]; rfl⟩

end Credence.Number
