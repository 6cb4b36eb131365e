import Credence.Proofs.Inference.Confidence
/-!
# Confidences that are equal as numbers

There are two zeros, so that two confidences may be equal as numbers and still be
different doubles. Whatever is done with confidences, comparing them, scaling them or
taking the least of several, does not tell such doubles apart.
-/

namespace Credence

open Number Float.Model Float.Model.UnpackedFloat

/-- No confidence is as low as what stands for a statement that was never rejected. -/
theorem not_le_minus_one {x : Float} (hx : inUnit x = true) : ¬ x ≤ -1.0 := by
  obtain ⟨n, hn, _⟩ := (inUnit_iff x).1 hx
  rw [le_iff]
  generalize x.toModel.unpack = u at hn
  cases hn with
  | zero s => cases s <;> decide
  | finite hm h =>
    have hneg : (-1.0 : Float).toModel.unpack = .finite .negative (twos 52) (-52) (twos_pos 52) := rfl
    rw [hneg]
    simp [UnpackedFloat.le, UnpackedFloat.compare]

/-- Two confidences that are the same number. -/
structure Level (x y : Float) : Prop where
  left : inUnit x = true
  right : inUnit y = true
  le : x ≤ y
  ge : y ≤ x

namespace Level

variable {x x' y y' : Float}

theorem refl (hx : inUnit x = true) : Level x x :=
  ⟨hx, hx, le_refl_of_inUnit hx, le_refl_of_inUnit hx⟩

theorem symm (h : Level x y) : Level y x := ⟨h.right, h.left, h.ge, h.le⟩

theorem trans {z : Float} (h : Level x y) (h' : Level y z) : Level x z :=
  ⟨h.left, h'.right, le_of_le_of_inUnit h.right h'.right h.le h'.le,
    le_of_le_of_inUnit h.right h.left h'.ge h.ge⟩

/-- The same numbers are equal doubles, or are both zeros. -/
theorem beq (h : Level x y) : (x == y) = true := by
  obtain ⟨m, hm, _⟩ := (inUnit_iff x).1 h.left
  obtain ⟨n, hn, _⟩ := (inUnit_iff y).1 h.right
  have hle := (hm.le_iff hn).1 ((le_iff x y).1 h.le)
  have hge := (hn.le_iff hm).1 ((le_iff y x).1 h.ge)
  show (x.toModel.unpack.compare y.toModel.unpack == some .eq) = true
  rw [hm.compare_eq hn, beq_iff_eq, Option.some_inj]
  exact compare_eq_iff_eq.2 (Nat.le_antisymm hle hge)

theorem of_beq (hx : inUnit x = true) (hy : inUnit y = true) (h : (x == y) = true) :
    Level x y := by
  obtain ⟨m, hm, _⟩ := (inUnit_iff x).1 hx
  obtain ⟨n, hn, _⟩ := (inUnit_iff y).1 hy
  have h : (x.toModel.unpack.compare y.toModel.unpack == some .eq) = true := h
  rw [hm.compare_eq hn, beq_iff_eq, Option.some_inj] at h
  have heq : m = n := compare_eq_iff_eq.1 h
  exact ⟨hx, hy, (le_iff x y).2 ((hm.le_iff hn).2 (Nat.le_of_eq heq)),
    (le_iff y x).2 ((hn.le_iff hm).2 (Nat.le_of_eq heq.symm))⟩

/-! ## Comparing -/

/-- Anything is at most both of them, or at most neither. -/
theorem le_left_iff (h : Level x y) (z : Float) : z ≤ x ↔ z ≤ y :=
  ⟨fun hz => le_of_le_of_inUnit h.left h.right hz h.le,
    fun hz => le_of_le_of_inUnit h.right h.left hz h.ge⟩

theorem le_iff_le (h : Level x x') (h' : Level y y') : x ≤ y ↔ x' ≤ y' := by
  rw [h'.le_left_iff x]
  exact ⟨le_of_le_of_inUnit h.left h'.right h.ge, le_of_le_of_inUnit h.right h'.right h.le⟩

/-! ## Scaling -/

theorem mul (h : Level x y) {r : Float} (hr : inUnit r = true) : Level (x * r) (y * r) :=
  ⟨(inUnit_mul h.left hr).1, (inUnit_mul h.right hr).1,
    mul_le_mul_of_inUnit h.left h.right hr h.le, mul_le_mul_of_inUnit h.right h.left hr h.ge⟩

/-! ## The least of several -/

/-- Lists of the same numbers have the same least number. -/
theorem least {cs ds : List Float} (hc : cs ≠ []) (hd : ds ≠ [])
    (h : ∀ c ∈ cs, ∃ d ∈ ds, Level c d) (h' : ∀ d ∈ ds, ∃ c ∈ cs, Level d c) :
    Level (Proof.least cs) (Proof.least ds) := by
  have hcs : ∀ c ∈ cs, inUnit c = true := fun c hmem => (h c hmem).elim fun _ hl => hl.2.left
  have hds : ∀ d ∈ ds, inUnit d = true := fun d hmem => (h' d hmem).elim fun _ hl => hl.2.left
  refine ⟨Proof.inUnit_least hcs, Proof.inUnit_least hds, ?_, ?_⟩
  · refine Proof.least_le_least hcs hds hd fun d hmem => ?_
    obtain ⟨c, hcmem, hl⟩ := h' d hmem
    exact ⟨c, hcmem, hl.ge⟩
  · refine Proof.least_le_least hds hcs hc fun c hmem => ?_
    obtain ⟨d, hdmem, hl⟩ := h c hmem
    exact ⟨d, hdmem, hl.ge⟩

end Level

end Credence
