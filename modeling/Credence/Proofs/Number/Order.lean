import Credence.Proofs.Number.UnitInterval
import Mathlib.Data.Prod.Lex
/-!
# Comparing doubles

`≤` compares doubles by sign, then by exponent and mantissa, with the two infinities at the
ends. So it is transitive throughout, and total on the doubles that compare with
themselves, which is all of them but those that are no number.
-/

namespace Credence.Number

open Float.Model Float.Model.UnpackedFloat

/-- Where a double stands: its sign, its exponent and its mantissa, turned around below zero. What is
no number stands nowhere. -/
def standing? : Float.Model.UnpackedFloat → Option (Int ×ₗ Int ×ₗ Int)
  | .notANumber => none
  | .infinity .negative => some (toLex (-2, toLex (0, 0)))
  | .finite .negative m e _ => some (toLex (-1, toLex (-e, -(m : Int))))
  | .zero _ => some (toLex (0, toLex (0, 0)))
  | .finite .positive m e _ => some (toLex (1, toLex (e, (m : Int))))
  | .infinity .positive => some (toLex (2, toLex (0, 0)))

theorem compare_natCast (m n : Nat) : compare (m : Int) (n : Int) = compare m n := by
  simp only [Int.compare_eq_ite_lt, Nat.compare_eq_ite_lt, Int.ofNat_lt]

theorem compare_neg_neg (a b : Int) : compare (-a) (-b) = (compare a b).swap := by
  rw [Int.compare_swap]
  simp only [Int.compare_eq_ite_lt, Int.neg_lt_neg_iff]

theorem compare_standing (u v : Float.Model.UnpackedFloat) :
    u.compare v = (standing? u).bind fun a => (standing? v).map (compare a) := by
  rcases u with (_ | _) | _ | _ | ⟨_ | _, m, e, hm⟩ <;>
    rcases v with (_ | _) | _ | _ | ⟨_ | _, n, f, hn⟩ <;>
    simp [UnpackedFloat.compare, standing?, Prod.Lex.compare_def, compareLex, compareOn,
      compare_natCast, compare_neg_neg, Ordering.swap_then] <;> rfl

/-- Where a double stands among the others. -/
def placeOf (x : Float) : Option (Int ×ₗ Int ×ₗ Int) := standing? x.toModel.unpack

theorem le_iff_placeOf {x y : Float} :
    x ≤ y ↔ ∃ a b, placeOf x = some a ∧ placeOf y = some b ∧ a ≤ b := by
  rw [le_iff, UnpackedFloat.le, compare_standing]
  unfold placeOf
  cases standing? x.toModel.unpack <;> cases standing? y.toModel.unpack <;>
    simp [Ordering.isLE_iff_ne_gt, compare_le_iff_le]

theorem lt_iff_placeOf {x y : Float} :
    x < y ↔ ∃ a b, placeOf x = some a ∧ placeOf y = some b ∧ a < b := by
  rw [lt_iff, UnpackedFloat.lt, compare_standing]
  unfold placeOf
  cases standing? x.toModel.unpack <;> cases standing? y.toModel.unpack <;>
    simp [compare_lt_iff_lt]

/-! ## The doubles that are numbers -/

variable {x y z : Float}

theorem double_le_trans (h : x ≤ y) (h' : y ≤ z) : x ≤ z := by
  obtain ⟨a, b, ha, hb, hab⟩ := le_iff_placeOf.1 h
  obtain ⟨b', c, hb', hc, hbc⟩ := le_iff_placeOf.1 h'
  cases hb.symm.trans hb'
  exact le_iff_placeOf.2 ⟨a, c, ha, hc, hab.trans hbc⟩

theorem double_le_self_right (h : x ≤ y) : y ≤ y := by
  obtain ⟨-, b, -, hb, -⟩ := le_iff_placeOf.1 h
  exact le_iff_placeOf.2 ⟨b, b, hb, hb, le_refl b⟩

theorem double_le_total (hx : x ≤ x) (hy : y ≤ y) : x ≤ y ∨ y ≤ x := by
  obtain ⟨a, -, ha, -, -⟩ := le_iff_placeOf.1 hx
  obtain ⟨b, -, hb, -, -⟩ := le_iff_placeOf.1 hy
  rcases le_total a b with hab | hba
  · exact .inl (le_iff_placeOf.2 ⟨a, b, ha, hb, hab⟩)
  · exact .inr (le_iff_placeOf.2 ⟨b, a, hb, ha, hba⟩)

end Credence.Number
