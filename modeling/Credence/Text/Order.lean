/-!
# Texts in order

Texts are ordered by their characters, and characters by their code points.
-/

namespace Credence.Text

/-- Whether a text stands at or before another. -/
def atMost (a b : String) : Bool := !decide (b < a)

/-- Texts in order; equal texts stay where they are. -/
def sorted (ss : List String) : List String := ss.mergeSort atMost

theorem mem_sorted {s : String} {ss : List String} : s ∈ sorted ss ↔ s ∈ ss := by
  simp [sorted, List.mem_mergeSort]

end Credence.Text
