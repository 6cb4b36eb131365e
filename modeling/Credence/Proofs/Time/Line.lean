import Credence.Time.Instant
import Mathlib.Data.List.Count
/-!
# Moments on one line

What a relation of two intervals says makes sense where comparing their ends puts them
on one line: of two moments one lies before the other or they are the same, and what
does not lie before a moment does not lie before an earlier one. Such moments can be
numbered in their order.

Instants at fixed distances from universal time lie on one line, and so do all instants
of one place. Every instant that is read from a document is at a fixed distance.
-/

namespace Credence

section Moments

variable {α : Type} [LT α] [BEq α] {ms : List α} {rank : α → Int}

/-- Moments on one line: none lies before and behind another, what is not before a moment is not
before an earlier one, and those are the same that do not lie before each other. -/
structure Aligned (ms : List α) : Prop where
  asymm : ∀ x ∈ ms, ∀ y ∈ ms, x < y → ¬ y < x
  trans : ∀ x ∈ ms, ∀ y ∈ ms, ∀ z ∈ ms, ¬ y < x → ¬ z < y → ¬ z < x
  same : ∀ x ∈ ms, ∀ y ∈ ms, x == y ↔ ¬ x < y ∧ ¬ y < x

/-- Numbers that compare as the moments do. -/
structure Scale (rank : α → Int) (ms : List α) : Prop where
  lt_iff : ∀ x ∈ ms, ∀ y ∈ ms, x < y ↔ rank x < rank y
  same_iff : ∀ x ∈ ms, ∀ y ∈ ms, x == y ↔ rank x = rank y

theorem Aligned.mono {ms' : List α} (h : Aligned ms) (hsub : ms' ⊆ ms) : Aligned ms' where
  asymm x hx y hy := h.asymm x (hsub hx) y (hsub hy)
  trans x hx y hy z hz := h.trans x (hsub hx) y (hsub hy) z (hsub hz)
  same x hx y hy := h.same x (hsub hx) y (hsub hy)

theorem Scale.mono {ms' : List α} (h : Scale rank ms) (hsub : ms' ⊆ ms) : Scale rank ms' where
  lt_iff x hx y hy := h.lt_iff x (hsub hx) y (hsub hy)
  same_iff x hx y hy := h.same_iff x (hsub hx) y (hsub hy)

theorem Scale.aligned (h : Scale rank ms) : Aligned ms where
  asymm x hx y hy hxy hyx := by
    rw [h.lt_iff x hx y hy] at hxy
    rw [h.lt_iff y hy x hx] at hyx
    omega
  trans x hx y hy z hz hyx hzy hzx := by
    rw [h.lt_iff y hy x hx] at hyx
    rw [h.lt_iff z hz y hy] at hzy
    rw [h.lt_iff z hz x hx] at hzx
    omega
  same x hx y hy := by
    rw [h.same_iff x hx y hy, h.lt_iff x hx y hy, h.lt_iff y hy x hx]
    omega

/-- Moments on one line are numbered by how many of them lie before each. -/
theorem Aligned.exists_scale [DecidableLT α] (h : Aligned ms) : ∃ rank : α → Int, Scale rank ms := by
  have hle : ∀ x ∈ ms, ∀ y ∈ ms, ¬ y < x → ms.countP (· < x) ≤ ms.countP (· < y) := by
    intro x hx y hy hyx
    refine List.countP_mono_left fun z hz hzx => ?_
    rw [decide_eq_true_eq] at hzx ⊢
    by_contra hzy
    exact h.trans x hx y hy z hz hyx hzy hzx
  have hlt : ∀ x ∈ ms, ∀ y ∈ ms, x < y → ms.countP (· < x) < ms.countP (· < y) := by
    intro x hx y hy hxy
    have hxx : ¬ x < x := fun hxx => h.asymm x hx x hx hxx hxx
    -- What lies before `x` is among what lies before `y`, where `x` itself is left over.
    have hamong : ms.countP (· < x) = (ms.filter (· < y)).countP (· < x) := by
      rw [List.countP_filter]
      refine List.countP_congr fun z hz => ?_
      simp only [Bool.and_eq_true, decide_eq_true_eq, iff_self_and]
      intro hzx
      by_contra hzy
      exact h.trans x hx y hy z hz (h.asymm x hx y hy hxy) hzy hzx
    rw [hamong, List.countP_eq_length_filter (p := (· < y)), List.countP_lt_length_iff]
    exact ⟨x, List.mem_filter.2 ⟨hx, decide_eq_true hxy⟩, decide_eq_false hxx⟩
  refine ⟨fun x => ms.countP (· < x), fun x hx y hy => ⟨fun hxy => ?_, fun hlt' => ?_⟩,
    fun x hx y hy => ?_⟩
  · exact Int.ofNat_lt.2 (hlt x hx y hy hxy)
  · by_contra hxy
    have := hle y hy x hx hxy
    omega
  · rw [h.same x hx y hy]
    constructor
    · rintro ⟨hxy, hyx⟩
      have := hle x hx y hy hyx
      have := hle y hy x hx hxy
      omega
    · intro heq
      refine ⟨fun hxy => ?_, fun hyx => ?_⟩
      · have := hlt x hx y hy hxy
        omega
      · have := hlt y hy x hx hyx
        omega

end Moments

/-! ## Instants -/

namespace Instant

variable {i j : Instant} {ts : List Instant}

theorem isSame_comm (z z' : Zone) : z.isSame z' = z'.isSame z := by
  cases z <;> cases z' <;> simp [Zone.isSame, Bool.beq_comm]

theorem lt_iff_localTime (h : i.zone.isSame j.zone = true) : i < j ↔ i.localTime < j.localTime := by
  show decide (i.since j < 0) = true ↔ _
  rw [decide_eq_true_iff, since, if_pos h]
  exact ⟨Int.lt_of_sub_neg, Int.sub_neg_of_lt⟩

theorem lt_iff_universal (h : ¬ i.zone.isSame j.zone = true) : i < j ↔ i.universal < j.universal := by
  show decide (i.since j < 0) = true ↔ _
  rw [decide_eq_true_iff, since, if_neg h]
  exact ⟨Int.lt_of_sub_neg, Int.sub_neg_of_lt⟩

theorem same_iff_localTime (h : i.zone.isSame j.zone = true) : i == j ↔ i.localTime = j.localTime := by
  show i.agrees j = true ↔ _
  unfold agrees since
  rw [if_pos h, h]
  simp [Int.sub_eq_zero]

theorem same_iff_universal (h : ¬ i.zone.isSame j.zone = true) :
    i == j ↔ i.universal = j.universal ∧ i.isUnsure = false ∧ j.isUnsure = false := by
  show i.agrees j = true ↔ _
  unfold agrees since
  rw [if_neg h]
  simp [h, Int.sub_eq_zero]

/-- Instants of one zone compare as its clocks show them. -/
theorem scale_localTime (h : ∀ t ∈ ts, ∀ t' ∈ ts, t.zone.isSame t'.zone = true) :
    Scale localTime ts where
  lt_iff t ht t' ht' := lt_iff_localTime (h t ht t' ht')
  same_iff t ht t' ht' := same_iff_localTime (h t ht t' ht')

/-- Instants outside the times that clocks skip or show twice compare by universal time, where the
clocks of each place go forward between them. -/
theorem scale_universal (hsure : ∀ t ∈ ts, t.isUnsure = false)
    (hclocks : ∀ t ∈ ts, ∀ t' ∈ ts, t.zone.isSame t'.zone = true →
      (t.localTime < t'.localTime ↔ t.universal < t'.universal)) : Scale universal ts where
  lt_iff t ht t' ht' := by
    by_cases hsame : t.zone.isSame t'.zone = true
    · rw [lt_iff_localTime hsame, hclocks t ht t' ht' hsame]
    · exact lt_iff_universal hsame
  same_iff t ht t' ht' := by
    by_cases hsame : t.zone.isSame t'.zone = true
    · have hlt := hclocks t ht t' ht' hsame
      have hgt := hclocks t' ht' t ht (isSame_comm _ _ ▸ hsame)
      rw [same_iff_localTime hsame]
      omega
    · rw [same_iff_universal hsame]
      simp [hsure t ht, hsure t' ht']

/-- Instants at fixed distances are on one line. -/
theorem aligned_of_isFixed (h : ∀ t ∈ ts, t.zone.isFixed = true) : Aligned ts := by
  have hfixed : ∀ t ∈ ts, ∃ d, t.zone = .fixed d := by
    intro t ht
    have hzone := h t ht
    cases hz : t.zone with
    | fixed d => exact ⟨d, rfl⟩
    | place => rw [hz] at hzone; cases hzone
  refine (scale_universal (fun t ht => ?_) fun t ht t' ht' hsame => ?_).aligned
  · obtain ⟨d, hd⟩ := hfixed t ht
    unfold isUnsure
    rw [hd]
    rfl
  · obtain ⟨d, hd⟩ := hfixed t ht
    obtain ⟨d', hd'⟩ := hfixed t' ht'
    rw [hd, hd'] at hsame
    have heq : d = d' := eq_of_beq hsame
    unfold universal offset
    rw [hd, hd', heq]
    dsimp only [Zone.distance]
    omega

/-! ## Instants that are read -/

theorem isFixed_of_ofTimestamp {seconds micros : Int} (h : ofTimestamp seconds micros = some i) :
    i.zone.isFixed = true := by
  obtain ⟨-, h⟩ := Option.ite_none_right_eq_some.1 h
  cases h
  rfl

theorem isFixed_of_ofSeconds {x : Float} (h : ofSeconds x = some i) : i.zone.isFixed = true := by
  obtain ⟨n, -, h⟩ := Option.bind_eq_some_iff.1 h
  exact isFixed_of_ofTimestamp h

theorem isFixed_of_ofDecimal {x : Float} (h : ofDecimal x = some i) : i.zone.isFixed = true := by
  obtain ⟨n, -, h⟩ := Option.bind_eq_some_iff.1 h
  obtain ⟨below, -, h⟩ := Option.bind_eq_some_iff.1 h
  exact isFixed_of_ofTimestamp h

theorem isFixed_of_readStamp {s : String} (h : readStamp s = some i) : i.zone.isFixed = true := by
  unfold readStamp at h
  dsimp only at h
  split at h
  · cases h
  · split at h
    · exact isFixed_of_ofTimestamp h
    · split at h
      · cases h
      · obtain ⟨x, -, h⟩ := Option.bind_eq_some_iff.1 h
        exact isFixed_of_ofDecimal h
    · cases h

theorem isFixed_of_readText {s : String} (h : readText s = some i) : i.zone.isFixed = true := by
  obtain ⟨⟨days, cs⟩, -, h⟩ := Option.bind_eq_some_iff.1 h
  dsimp only at h
  split at h
  · cases h
    rfl
  · split at h
    · cases h
    · obtain ⟨⟨t, cs⟩, -, h⟩ := Option.bind_eq_some_iff.1 h
      obtain ⟨offset, -, h⟩ := Option.bind_eq_some_iff.1 h
      cases h
      rfl

/-- What is read is at a fixed distance. -/
theorem isFixed_of_reader {v : Value} (h : reader v = .ok i) : i.zone.isFixed = true := by
  unfold reader at h
  dsimp only at h
  split at h
  · next found hfound =>
    cases h
    split at hfound
    · next s =>
      cases htext : readText s with
      | some j =>
        rw [htext] at hfound
        cases hfound
        exact isFixed_of_readText htext
      | none =>
        rw [htext] at hfound
        exact isFixed_of_readStamp hfound
    · exact isFixed_of_ofTimestamp hfound
    · exact isFixed_of_ofSeconds hfound
    · cases hfound
  · cases h

/-! ## Instants that are moved -/

theorem isFixed_of_shift {s : Span} (h : i.shift s = .ok j) (hi : i.zone.isFixed = true) :
    j.zone.isFixed = true := by
  unfold shift at h
  dsimp only at h
  split at h <;> cases h
  cases hz : i.zone with
  | fixed => rfl
  | place => rw [hz] at hi; cases hi

theorem isFixed_later (hi : i.zone.isFixed = true) (hj : j.zone.isFixed = true) :
    (i.later j).zone.isFixed = true := by
  unfold later
  split
  · exact hj
  · exact hi

end Instant

end Credence
