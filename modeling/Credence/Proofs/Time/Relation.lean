import Mathlib.Logic.ExistsUnique
import Credence.Proofs.Time.Line
import Credence.Time.Relation
/-!
# The relation of two intervals

A relation is a statement about the four ends of two intervals. Of two intervals that
end no sooner than they start, exactly one such statement holds: the one that is
computed. Read from the second interval it is the statement of the inverse, so the
relation computed the other way round is the inverse.

All of this needs the four ends to lie on one line. That is all it needs, so it is
proved of numbers, and moments on one line can be numbered.
-/

namespace Credence

variable {α : Type}

/-- The interval of the numbers of its ends. -/
def Interval.scaled (rank : α → Int) (a : Interval α) : Interval := ⟨rank a.start, rank a.stop⟩

/-- The four ends of two intervals. -/
def Interval.ends (a b : Interval α) : List α := [a.start, a.stop, b.start, b.stop]

namespace Relation

variable [LT α] [BEq α] {a b : Interval α} {r r' : Relation} {rank : α → Int}

/-- What a relation says of the ends of two intervals. -/
def Holds (a b : Interval α) : Relation → Prop
  | before => a.stop < b.start
  | after => b.stop < a.start
  | meets => a.stop == b.start ∧ a.start < b.start ∧ a.stop < b.stop
  | metBy => b.stop == a.start ∧ b.start < a.start ∧ b.stop < a.stop
  | overlaps => a.start < b.start ∧ b.start < a.stop ∧ a.stop < b.stop
  | overlappedBy => b.start < a.start ∧ a.start < b.stop ∧ b.stop < a.stop
  | starts => a.start == b.start ∧ a.stop < b.stop
  | startedBy => b.start == a.start ∧ b.stop < a.stop
  | during => b.start < a.start ∧ a.stop < b.stop
  | contains => a.start < b.start ∧ b.stop < a.stop
  | finishes => a.stop == b.stop ∧ b.start < a.start
  | finishedBy => b.stop == a.stop ∧ a.start < b.start
  | equals => a.start == b.start ∧ a.stop == b.stop

/-! ## Numbers -/

section Numbers

variable {a b : Interval}

theorem holds_between_numbers (ha : a.start ≤ a.stop) (hb : b.start ≤ b.stop) :
    (between a b).Holds a b := by
  unfold between
  repeat' split
  all_goals
    unfold Holds
    simp only [beq_iff_eq] at *
    omega

theorem Holds.unique_numbers (ha : a.start ≤ a.stop) (hb : b.start ≤ b.stop) (h : r.Holds a b)
    (h' : r'.Holds a b) : r = r' := by
  cases r <;> cases r' <;> first | rfl | (simp only [Holds, beq_iff_eq] at h h'; omega)

/-- Where neither interval ends before it starts, sharing one moment is meeting unless the
intervals share an end as well. -/
theorem holds_meets_numbers (ha : a.start ≤ a.stop) (hb : b.start ≤ b.stop) :
    meets.Holds a b ↔ a.stop = b.start ∧ a.start ≠ b.start ∧ a.stop ≠ b.stop := by
  simp only [Holds, beq_iff_eq]
  omega

end Numbers

/-! ## Moments that are numbered -/

section Scaled

variable (h : Scale rank (a.ends b))

omit [LT α] [BEq α] in
theorem mem_ends (a b : Interval α) : (a.start ∈ a.ends b ∧ a.stop ∈ a.ends b) ∧
    b.start ∈ a.ends b ∧ b.stop ∈ a.ends b := by
  simp [Interval.ends]

include h

theorem holds_scaled : r.Holds (a.scaled rank) (b.scaled rank) ↔ r.Holds a b := by
  obtain ⟨⟨has, hae⟩, hbs, hbe⟩ := mem_ends a b
  cases r <;> simp only [Holds, Interval.scaled, beq_iff_eq, h.lt_iff, h.same_iff, has, hae, hbs, hbe]

theorem between_scaled [DecidableLT α] : between (a.scaled rank) (b.scaled rank) = between a b := by
  obtain ⟨⟨has, hae⟩, hbs, hbe⟩ := mem_ends a b
  simp only [between, Interval.scaled, beq_iff_eq, gt_iff_lt, ← h.lt_iff, ← h.same_iff, has, hae,
    hbs, hbe]

end Scaled

/-! ## Moments on one line -/

section Line

variable [DecidableLT α] (hline : Aligned (a.ends b))

include hline

omit [DecidableLT α] in
theorem aligned_swap : Aligned (b.ends a) := by
  refine hline.mono fun x hx => ?_
  simp only [Interval.ends, List.mem_cons, List.not_mem_nil, or_false] at hx ⊢
  rcases hx with rfl | rfl | rfl | rfl <;> simp

omit [DecidableLT α] in
theorem Holds.inverse (h : r.Holds a b) : r.inverse.Holds b a := by
  obtain ⟨⟨has, hae⟩, hbs, hbe⟩ := mem_ends a b
  cases r
  case equals =>
    unfold Holds at h
    rw [hline.same _ has _ hbs, hline.same _ hae _ hbe] at h
    exact ⟨(hline.same _ hbs _ has).2 h.1.symm, (hline.same _ hbe _ hae).2 h.2.symm⟩
  all_goals exact h

variable (ha : ¬ a.stop < a.start) (hb : ¬ b.stop < b.start)

include ha hb

/-- The intervals in numbers end no sooner than they start. -/
theorem exists_scaled : ∃ rank : α → Int, Scale rank (a.ends b) ∧
    (a.scaled rank).start ≤ (a.scaled rank).stop ∧ (b.scaled rank).start ≤ (b.scaled rank).stop := by
  obtain ⟨⟨has, hae⟩, hbs, hbe⟩ := mem_ends a b
  obtain ⟨rank, h⟩ := hline.exists_scale
  rw [h.lt_iff _ hae _ has] at ha
  rw [h.lt_iff _ hbe _ hbs] at hb
  exact ⟨rank, h, Int.not_lt.1 ha, Int.not_lt.1 hb⟩

theorem holds_between : (between a b).Holds a b := by
  obtain ⟨rank, h, ha, hb⟩ := exists_scaled hline ha hb
  rw [← holds_scaled h, ← between_scaled h]
  exact holds_between_numbers ha hb

/-- Two relations never hold together. -/
theorem Holds.unique (h : r.Holds a b) (h' : r'.Holds a b) : r = r' := by
  obtain ⟨rank, hrank, ha, hb⟩ := exists_scaled hline ha hb
  exact ((holds_scaled hrank).2 h).unique_numbers ha hb ((holds_scaled hrank).2 h')

theorem between_eq_iff : between a b = r ↔ r.Holds a b := by
  constructor
  · rintro rfl
    exact holds_between hline ha hb
  · exact (holds_between hline ha hb).unique hline ha hb

theorem between_inverse : between b a = (between a b).inverse :=
  (between_eq_iff (aligned_swap hline) hb ha).2 ((holds_between hline ha hb).inverse hline)

/-! ## Before -/

/-- What lies before another interval, or meets it, starts sooner. -/
theorem start_lt_of_between (h : between a b = before ∨ between a b = meets) :
    a.start < b.start := by
  rcases h with h | h
  · have hlt : a.stop < b.start := (between_eq_iff hline ha hb).1 h
    obtain ⟨⟨has, hae⟩, hbs, -⟩ := mem_ends a b
    by_contra hge
    exact hline.trans _ hbs _ has _ hae hge ha hlt
  · exact ((between_eq_iff hline ha hb).1 h).2.1

/-! ## The classification -/

theorem between_eq_inverse_iff : between a b = r.inverse ↔ between b a = r := by
  rw [between_inverse (aligned_swap hline) hb ha]
  exact ⟨fun h => by rw [← inverse_inverse (between b a), h, inverse_inverse], congrArg inverse⟩

/-- Sharing one moment is meeting unless the intervals share an end as well. -/
theorem holds_meets_iff :
    meets.Holds a b ↔ a.stop == b.start ∧ ¬ a.start == b.start ∧ ¬ a.stop == b.stop := by
  obtain ⟨⟨has, hae⟩, hbs, hbe⟩ := mem_ends a b
  obtain ⟨rank, h, ha, hb⟩ := exists_scaled hline ha hb
  rw [← holds_scaled h, h.same_iff _ hae _ hbs, h.same_iff _ has _ hbs, h.same_iff _ hae _ hbe]
  exact holds_meets_numbers ha hb

end Line

theorem mem_all (r : Relation) : r ∈ all := by cases r <;> decide

namespace Autumn

/-- The local time at some minute of the night. -/
def minute (n : Int) : Int := Instant.daysOfDate 2024 10 27 * Span.day + n * 60 * Span.second

/-- The distance from universal time: the hour from two o'clock on comes twice. -/
def distance (t : Int) (second : Bool) : Int :=
  if t < minute 120 ∨ t < minute 180 ∧ second = false then 7200 * Span.second
  else 3600 * Span.second

/-- What the clocks of the place show, for the first time. -/
def here (n : Int) : Instant := ⟨minute n, .place 0 distance false⟩

/-- Universal time. -/
def universal (n : Int) : Instant := ⟨minute n, 0⟩

end Autumn

open Autumn in
/-- In the repeated hour the ends are on no line: neither of two moments lies before the other, nor
are they the same, and each gets the same relation to the other. -/
example :
    let a : Interval Instant := ⟨here 150, here 150⟩
    let b : Interval Instant := ⟨universal 30, universal 30⟩
    ¬ Aligned (a.ends b) ∧ between a b = overlappedBy ∧ between b a = overlappedBy := by
  intro a b
  refine ⟨fun hline => ?_, by decide +kernel, by decide +kernel⟩
  obtain ⟨⟨has, -⟩, hbs, -⟩ := mem_ends a b
  have hsame := (hline.same _ has _ hbs).2 (by decide +kernel)
  exact absurd hsame (by decide +kernel)

end Relation

end Credence
