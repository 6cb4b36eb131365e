import Credence.Inference.Proof
import Credence.Proofs.Number.UnitInterval
/-!
# The least of some confidences

Among doubles from zero to one there is a least one. The confidence that a rule gives
to its conclusion is at most that of every premise, so the weakest part of a proof is
its root.
-/

namespace Credence

open Number

theorem inUnit_zero : inUnit 0.0 = true := by decide

theorem inUnit_one : inUnit 1.0 = true := by decide

theorem min_eq (x y : Float) : min x y = if x ≤ y then x else y := rfl

/-- One is the greatest confidence. -/
theorem min_one {x : Float} (hx : inUnit x = true) : min 1.0 x = x := by
  rw [min_eq]
  split
  · next h =>
    obtain ⟨n, hn, hn1⟩ := (inUnit_iff x).1 hx
    have hle := (amounts_one.le_iff hn).1 ((le_iff 1.0 x).1 h)
    rw [Nat.le_antisymm hn1 hle] at hn
    exact (eq_of_unpack (hn.unique (Nat.ne_of_gt (twos_pos 1074)) amounts_one)).symm
  · rfl

theorem inUnit_min {x y : Float} (hx : inUnit x = true) (hy : inUnit y = true) :
    inUnit (min x y) = true := by
  rw [min_eq]
  split
  · exact hx
  · exact hy

theorem min_le_left_of_inUnit {x y : Float} (hx : inUnit x = true) (hy : inUnit y = true) :
    min x y ≤ x := by
  rw [min_eq]
  split
  · exact le_refl_of_inUnit hx
  · next h => exact (le_total_of_inUnit hx hy).resolve_left h

theorem min_le_right_of_inUnit {x y : Float} (hy : inUnit y = true) : min x y ≤ y := by
  rw [min_eq]
  split
  · next h => exact h
  · exact le_refl_of_inUnit hy

theorem foldl_min_le {c : Float} {cs : List Float} (hc : inUnit c = true)
    (hcs : ∀ d ∈ cs, inUnit d = true) :
    inUnit (cs.foldl min c) = true ∧ cs.foldl min c ≤ c ∧ ∀ d ∈ cs, cs.foldl min c ≤ d := by
  induction cs generalizing c with
  | nil => exact ⟨hc, le_refl_of_inUnit hc, nofun⟩
  | cons d ds ih =>
    have hd := hcs d (List.mem_cons_self ..)
    have hm := inUnit_min hc hd
    obtain ⟨hu, hle, hall⟩ := ih hm fun e he => hcs e (List.mem_cons_of_mem _ he)
    rw [List.foldl_cons]
    refine ⟨hu, le_of_le_of_inUnit hm hc hle (min_le_left_of_inUnit hc hd), fun e he => ?_⟩
    rcases List.mem_cons.1 he with rfl | he
    · exact le_of_le_of_inUnit hm hd hle (min_le_right_of_inUnit hd)
    · exact hall e he

namespace Proof

theorem inUnit_least {cs : List Float} (h : ∀ c ∈ cs, inUnit c = true) :
    inUnit (least cs) = true := by
  cases cs with
  | nil => exact inUnit_zero
  | cons c cs =>
    exact (foldl_min_le (h c (List.mem_cons_self ..)) fun d hd => h d (List.mem_cons_of_mem _ hd)).1

theorem least_le {cs : List Float} (h : ∀ c ∈ cs, inUnit c = true) {c : Float} (hc : c ∈ cs) :
    least cs ≤ c := by
  cases cs with
  | nil => cases hc
  | cons d ds =>
    obtain ⟨_, hle, hall⟩ := foldl_min_le (h d (List.mem_cons_self ..)) fun e he =>
      h e (List.mem_cons_of_mem _ he)
    rcases List.mem_cons.1 hc with rfl | hc
    · exact hle
    · exact hall c hc

/-- A confidence that is at most all others is the least. -/
theorem least_cons_of_le {c : Float} {cs : List Float} (h : ∀ d ∈ cs, c ≤ d) :
    least (c :: cs) = c := by
  show cs.foldl min c = c
  induction cs with
  | nil => rfl
  | cons d ds ih =>
    rw [List.foldl_cons, min_eq, if_pos (h d (List.mem_cons_self ..))]
    exact ih fun e he => h e (List.mem_cons_of_mem _ he)

theorem foldl_min_mem (c : Float) (cs : List Float) : cs.foldl min c ∈ c :: cs := by
  induction cs generalizing c with
  | nil => exact List.mem_singleton.2 rfl
  | cons d ds ih =>
    rw [List.foldl_cons]
    have hmin : min c d = c ∨ min c d = d := by
      rw [min_eq]
      split
      · exact .inl rfl
      · exact .inr rfl
    rcases List.mem_cons.1 (ih (min c d)) with heq | hmem
    · rw [heq]
      rcases hmin with h | h
      · rw [h]
        exact List.mem_cons_self ..
      · rw [h]
        exact List.mem_cons_of_mem _ (List.mem_cons_self ..)
    · exact List.mem_cons_of_mem _ (List.mem_cons_of_mem _ hmem)

theorem least_mem {cs : List Float} (h : cs ≠ []) : least cs ∈ cs := by
  cases cs with
  | nil => exact absurd rfl h
  | cons c cs => exact foldl_min_mem c cs

/-- Where every confidence of a list has one below it in another, so has the least. -/
theorem least_le_least {cs ds : List Float} (hc : ∀ c ∈ cs, inUnit c = true)
    (hd : ∀ d ∈ ds, inUnit d = true) (hne : ds ≠ []) (h : ∀ d ∈ ds, ∃ c ∈ cs, c ≤ d) :
    least cs ≤ least ds := by
  obtain ⟨c, hmem, hle⟩ := h _ (least_mem hne)
  exact le_of_le_of_inUnit (hc c hmem) (hd _ (least_mem hne)) (least_le hc hmem) hle

end Proof

end Credence
