import Credence.Proofs.Number.Order
import Credence.Proofs.Ranking.Permutation
import Credence.Proofs.Ranking.Stable
import Mathlib.Algebra.Order.Field.Rat
import Mathlib.Algebra.Order.Field.Basic
/-!
# Rules by priority

Priorities are compared by their exact values, whatever form they are given in, with the
two infinities at the ends. So those that are numbers are in a total order, and reasoning
goes through the enabled rules from the highest priority down, equals in the order in which
they were added.
-/

namespace Credence

open Number

namespace Scalar

/-- Where a number stands: by its exact value, or at one of the ends. -/
def standing? (a : Scalar) : Option (Int ×ₗ ℚ) :=
  match a.ratio? with
  | some (m, k) => some (toLex (0, (m : ℚ) / k))
  | none => (placeOf a.toFloat).map fun p => toLex ((ofLex p).1, 0)

theorem ratio?_pos {a : Scalar} {m : Int} {k : Nat} (h : a.ratio? = some (m, k)) : 0 < k := by
  cases a with
  | whole n =>
    cases h
    exact Nat.one_pos
  | flag b =>
    cases h
    exact Nat.one_pos
  | real x =>
    simp only [ratio?, Number.ratio?] at h
    split at h
    · next d _ =>
      cases h
      unfold Dyadic.ratio
      split
      · exact Nat.one_pos
      · exact twos_pos _
    · cases h

/-- What has no exact value is an infinity or no number at all. -/
theorem placeOf_of_ratio? {a : Scalar} (h : a.ratio? = none) : placeOf a.toFloat = none ∨
    placeOf a.toFloat = some (toLex (2, toLex (0, 0))) ∨
      placeOf a.toFloat = some (toLex (-2, toLex (0, 0))) := by
  cases a with
  | whole n => cases h
  | flag b => cases h
  | real x =>
    simp only [ratio?, Number.ratio?, classify_eq] at h
    unfold toFloat placeOf
    cases hx : x.toModel.unpack with
    | infinity s => cases s <;> simp [Number.standing?]
    | notANumber => exact .inl rfl
    | zero s =>
      rw [hx] at h
      simp [classOf] at h
    | finite s m e hm =>
      rw [hx] at h
      simp [classOf] at h

theorem exists_standing {a : Scalar} (h : a.agrees a = true) : ∃ p, a.standing? = some p := by
  unfold standing?
  cases hr : a.ratio? with
  | some r => exact ⟨_, rfl⟩
  | none =>
    unfold agrees isAtMost at h
    rw [hr] at h
    have hle : a.toFloat ≤ a.toFloat := by simpa using h
    obtain ⟨p, -, hp, -⟩ := le_iff_placeOf.1 hle
    rw [hp]
    exact ⟨_, rfl⟩

theorem isLess_iff {a b : Scalar} {p q : Int ×ₗ ℚ} (ha : a.standing? = some p)
    (hb : b.standing? = some q) : a.isLess b = true ↔ p < q := by
  have hzero : placeOf 0.0 = some (toLex (0, toLex (0, 0))) := rfl
  unfold standing? at ha hb
  unfold isLess
  cases har : a.ratio? with
  | some r =>
    rw [har] at ha
    cases ha
    cases hbr : b.ratio? with
    | some r' =>
      rw [hbr] at hb
      cases hb
      have hk : (0 : ℚ) < r.2 := Nat.cast_pos.2 (ratio?_pos har)
      have hl : (0 : ℚ) < r'.2 := Nat.cast_pos.2 (ratio?_pos hbr)
      simp only [decide_eq_true_eq, Prod.Lex.toLex_lt_toLex, lt_self_iff_false, true_and, false_or]
      rw [div_lt_div_iff₀ hk hl]
      exact_mod_cast Iff.rfl
    | none =>
      rw [hbr] at hb
      simp only [decide_eq_true_eq]
      rw [lt_iff_placeOf]
      rcases placeOf_of_ratio? hbr with hplace | hplace | hplace <;> rw [hplace] at hb ⊢ <;> cases hb <;>
        simp [hzero, Prod.Lex.toLex_lt_toLex]
  | none =>
    rw [har] at ha
    cases hbr : b.ratio? with
    | some r' =>
      rw [hbr] at hb
      cases hb
      simp only [decide_eq_true_eq]
      rw [lt_iff_placeOf]
      rcases placeOf_of_ratio? har with hplace | hplace | hplace <;> rw [hplace] at ha ⊢ <;> cases ha <;>
        simp [hzero, Prod.Lex.toLex_lt_toLex]
    | none =>
      rw [hbr] at hb
      simp only [decide_eq_true_eq]
      rw [lt_iff_placeOf]
      rcases placeOf_of_ratio? har with hplace | hplace | hplace <;> rw [hplace] at ha ⊢ <;>
        cases ha <;> rcases placeOf_of_ratio? hbr with hplace' | hplace' | hplace' <;>
          rw [hplace'] at hb ⊢ <;> cases hb <;> simp [Prod.Lex.toLex_lt_toLex]

end Scalar

/-- Reasoning goes through the enabled rules by descending priority, equals in order of addition. -/
theorem RuleBase.ranked_inOrder {b : RuleBase}
    (h : ∀ r ∈ b.rules, r.enabled = true → r.rank.agrees r.rank = true) :
    Ranked (fun r r' => !r.rank.isLess r'.rank) (b.rules.filter Rule.enabled) b.inOrder := by
  have hall : ∀ r ∈ b.rules.filter Rule.enabled, r.rank.agrees r.rank = true := by
    intro r hr
    obtain ⟨hmem, he⟩ := List.mem_filter.1 hr
    exact h r hmem he
  have hle : ∀ {r r' : Rule} {p q : Int ×ₗ ℚ}, r.rank.standing? = some p →
      r'.rank.standing? = some q → ((!r.rank.isLess r'.rank) = true ↔ q ≤ p) := by
    intro r r' p q hr hr'
    rw [Bool.not_eq_true', ← Bool.not_eq_true, Scalar.isLess_iff hr hr', not_lt]
  unfold inOrder
  dsimp only
  rw [if_pos (List.all_eq_true.2 hall)]
  refine ranked_mergeSort (P := fun r => r.rank.agrees r.rank = true) ?_ ?_ hall
  · intro r r' r'' hr hr' hr'' hlt hlt'
    obtain ⟨p, hp⟩ := Scalar.exists_standing hr
    obtain ⟨q, hq⟩ := Scalar.exists_standing hr'
    obtain ⟨o, ho⟩ := Scalar.exists_standing hr''
    exact (hle hp ho).2 (((hle hq ho).1 hlt').trans ((hle hp hq).1 hlt))
  · intro r r' hr hr'
    obtain ⟨p, hp⟩ := Scalar.exists_standing hr
    obtain ⟨q, hq⟩ := Scalar.exists_standing hr'
    rw [hle hp hq, hle hq hp]
    exact le_total q p

end Credence
