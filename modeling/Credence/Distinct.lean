/-!
# Lists without repetitions

`distinct` keeps the first of equal items; `differing` counts what it keeps. A list
that lacks an item of another one, and holds nothing else, has fewer different items:
this is how a search that uses up labels or variables is seen to end.
-/

namespace Credence

/-- The items of a list without their repetitions, each at its first place. -/
def distinct {α : Type} [DecidableEq α] : List α → List α
  | [] => []
  | x :: xs => x :: (distinct xs).filter (· ≠ x)

theorem mem_distinct {α : Type} [DecidableEq α] (x : α) (xs : List α) :
    x ∈ distinct xs ↔ x ∈ xs := by
  induction xs with
  | nil => simp [distinct]
  | cons y ys ih =>
    simp only [distinct, List.mem_cons, List.mem_filter, ih, decide_eq_true_eq]
    by_cases h : x = y <;> simp [h]

theorem nodup_distinct {α : Type} [DecidableEq α] (xs : List α) : (distinct xs).Nodup := by
  induction xs with
  | nil => simp [distinct]
  | cons y ys ih =>
    simp only [distinct, List.nodup_cons, List.mem_filter, decide_eq_true_eq]
    exact ⟨by simp, ih.sublist List.filter_sublist⟩

/-- A list without repetitions is no longer than one that holds all its items. -/
theorem length_le_of_subset {α : Type} [DecidableEq α] {xs ys : List α} (hx : xs.Nodup)
    (h : ∀ x ∈ xs, x ∈ ys) : xs.length ≤ ys.length := by
  induction xs generalizing ys with
  | nil => simp
  | cons x xs ih =>
    have hxy : x ∈ ys := h x (by simp)
    have hle : xs.length ≤ (ys.erase x).length := ih (List.nodup_cons.1 hx).2 fun z hz => by
      have hne : z ≠ x := fun e => (List.nodup_cons.1 hx).1 (e ▸ hz)
      exact (List.mem_erase_of_ne hne).2 (h z (by simp [hz]))
    have hlen := List.length_erase_of_mem hxy
    have hpos : 0 < ys.length := List.length_pos_of_mem hxy
    simp only [List.length_cons]; omega

/-- The number of different items of a list. -/
def differing {α : Type} [DecidableEq α] (xs : List α) : Nat := (distinct xs).length

theorem differing_le {α : Type} [DecidableEq α] {xs ys : List α} (h : ∀ x ∈ xs, x ∈ ys) :
    differing xs ≤ differing ys :=
  length_le_of_subset (nodup_distinct xs) fun x hx =>
    (mem_distinct x ys).2 (h x ((mem_distinct x xs).1 hx))

theorem differing_lt {α : Type} [DecidableEq α] {xs ys : List α} {v : α} (hv : v ∈ ys)
    (h : ∀ x ∈ xs, x ∈ ys ∧ x ≠ v) : differing xs < differing ys := by
  have hd : v ∈ distinct ys := (mem_distinct v ys).2 hv
  have hle : (distinct xs).length ≤ ((distinct ys).erase v).length :=
    length_le_of_subset (nodup_distinct xs) fun x hx => by
      have := h x ((mem_distinct x xs).1 hx)
      exact (List.mem_erase_of_ne this.2).2 ((mem_distinct x ys).2 this.1)
  have hlen := List.length_erase_of_mem hd
  have hpos : 0 < (distinct ys).length := List.length_pos_of_mem hd
  simp only [differing]; omega

end Credence
