import Credence.Unification
/-!
# Instances of patterns

What replacing variables does to a pattern: it depends on the values of the
variables that occur, two replacements in a row are one, and nothing happens to a
ground pattern. A variable that occurs below the root of a pattern is smaller than
the pattern, whatever it stands for.
-/

namespace Credence.Pattern

/-- The values of variables. -/
abbrev Valuation := String → Pattern

mutual

theorem subst_congr {σ τ : Valuation} {p : Pattern} (h : ∀ v ∈ p.occurrences, σ v = τ v) :
    p.subst σ = p.subst τ := by
  cases p with
  | var v => exact h v (List.mem_singleton.2 rfl)
  | node k n => rfl
  | link k cs => exact congrArg (link k) (substList_congr h)

theorem substList_congr {σ τ : Valuation} {cs : List Pattern}
    (h : ∀ v ∈ occurrencesList cs, σ v = τ v) : substList σ cs = substList τ cs := by
  cases cs with
  | nil => rfl
  | cons c cs =>
    unfold substList
    rw [subst_congr fun v hv => h v (List.mem_append_left _ hv),
      substList_congr fun v hv => h v (List.mem_append_right _ hv)]

end

mutual

theorem subst_var (p : Pattern) : p.subst var = p := by
  cases p with
  | var v => rfl
  | node k n => rfl
  | link k cs => exact congrArg (link k) (substList_var cs)

theorem substList_var (cs : List Pattern) : substList var cs = cs := by
  cases cs with
  | nil => rfl
  | cons c cs =>
    unfold substList
    rw [subst_var c, substList_var cs]

end

mutual

theorem subst_subst (σ τ : Valuation) (p : Pattern) :
    (p.subst σ).subst τ = p.subst fun v => (σ v).subst τ := by
  cases p with
  | var v => rfl
  | node k n => rfl
  | link k cs => exact congrArg (link k) (substList_substList σ τ cs)

theorem substList_substList (σ τ : Valuation) (cs : List Pattern) :
    substList τ (substList σ cs) = substList (fun v => (σ v).subst τ) cs := by
  cases cs with
  | nil => rfl
  | cons c cs =>
    simp only [substList]
    rw [subst_subst σ τ c, substList_substList σ τ cs]

end

mutual

/-- Instances are the same only where all variables have the same values. -/
theorem eq_of_subst_eq {σ τ : Valuation} {p : Pattern} (h : p.subst σ = p.subst τ) :
    ∀ v ∈ p.occurrences, σ v = τ v := by
  cases p with
  | var w =>
    intro v hv
    rw [List.mem_singleton.1 hv]
    exact h
  | node k n => exact nofun
  | link k cs => exact eq_of_substList_eq (link.inj h).2

theorem eq_of_substList_eq {σ τ : Valuation} {cs : List Pattern}
    (h : substList σ cs = substList τ cs) : ∀ v ∈ occurrencesList cs, σ v = τ v := by
  cases cs with
  | nil => exact nofun
  | cons c cs =>
    obtain ⟨hc, hcs⟩ := List.cons.inj h
    exact List.forall_mem_append.2 ⟨eq_of_subst_eq hc, eq_of_substList_eq hcs⟩

end

theorem substList_eq_map (σ : Valuation) (cs : List Pattern) :
    substList σ cs = cs.map (subst σ) := by
  induction cs with
  | nil => rfl
  | cons c cs ih =>
    unfold substList
    rw [ih]
    rfl

theorem mem_occurrencesList {v : String} {cs : List Pattern} :
    v ∈ occurrencesList cs ↔ ∃ c ∈ cs, v ∈ c.occurrences := by
  induction cs with
  | nil => simp [occurrencesList]
  | cons c cs ih => simp [occurrencesList, ih]

theorem mem_vars {v : String} {p : Pattern} : v ∈ p.vars ↔ v ∈ p.occurrences :=
  mem_distinct v p.occurrences

/-! ## Ground patterns -/

theorem isGround_iff {p : Pattern} : p.isGround = true ↔ ∀ v, v ∉ p.occurrences := by
  unfold isGround
  rw [List.isEmpty_iff, List.eq_nil_iff_forall_not_mem]

theorem subst_of_isGround {p : Pattern} (h : p.isGround = true) (σ : Valuation) :
    p.subst σ = p := by
  rw [subst_congr fun v hv => absurd hv (isGround_iff.1 h v), subst_var]

/-- An instance is ground if the values of all variables that occur are. -/
theorem isGround_subst_iff {σ : Valuation} {p : Pattern} :
    (p.subst σ).isGround = true ↔ ∀ v ∈ p.occurrences, (σ v).isGround = true := by
  simp only [isGround_iff, Unification.mem_occurrences_subst]
  constructor
  · intro h v hv w hw
    exact h w ⟨v, hv, hw⟩
  · rintro h w ⟨v, hv, hw⟩
    exact h v hv w hw

/-! ## Sizes -/

mutual

theorem size_le_size_subst (σ : Valuation) {v : String} {p : Pattern} (h : v ∈ p.occurrences) :
    (σ v).size ≤ (p.subst σ).size := by
  cases p with
  | var w => exact Nat.le_of_eq (congrArg (fun u => (σ u).size) (List.mem_singleton.1 h))
  | node k n => cases h
  | link k cs =>
    show (σ v).size ≤ 1 + sizeList (substList σ cs)
    exact Nat.le_add_left_of_le (size_le_sizeList_substList σ h)

theorem size_le_sizeList_substList (σ : Valuation) {v : String} {cs : List Pattern}
    (h : v ∈ occurrencesList cs) : (σ v).size ≤ sizeList (substList σ cs) := by
  cases cs with
  | nil => cases h
  | cons c cs =>
    unfold substList sizeList
    rcases List.mem_append.1 h with h | h
    · have := size_le_size_subst σ h
      omega
    · have := size_le_sizeList_substList σ h
      omega

end

/-- No value of a variable is an instance of a pattern that holds the variable below its root. -/
theorem ne_subst_of_occurs {σ : Valuation} {v : String} {p : Pattern} (h : v ∈ p.occurrences)
    (hp : p ≠ var v) : σ v ≠ p.subst σ := by
  intro heq
  cases p with
  | var w => exact hp (congrArg var (List.mem_singleton.1 h).symm)
  | node k n => cases h
  | link k cs =>
    have h1 : (σ v).size ≤ sizeList (substList σ cs) := size_le_sizeList_substList σ h
    have h2 : (σ v).size = 1 + sizeList (substList σ cs) := congrArg size heq
    omega

/-! ## Kinds -/

mutual

/-- Whether every node is of a kind of nodes and every link of a kind of links. -/
def WellKinded : Pattern → Prop
  | var _ => True
  | node k _ => k.isLink = false
  | link k cs => k.isLink = true ∧ WellKindedList cs

/-- Whether all patterns of a list are well kinded. -/
def WellKindedList : List Pattern → Prop
  | [] => True
  | c :: cs => WellKinded c ∧ WellKindedList cs

end

theorem wellKindedList_iff {cs : List Pattern} :
    WellKindedList cs ↔ ∀ c ∈ cs, c.WellKinded := by
  induction cs with
  | nil => simp [WellKindedList]
  | cons c cs ih => simp [WellKindedList, ih]

mutual

theorem WellKinded.subst {σ : Valuation} {p : Pattern} (h : p.WellKinded)
    (hσ : ∀ v ∈ p.occurrences, (σ v).WellKinded) : (p.subst σ).WellKinded := by
  cases p with
  | var v => exact hσ v (List.mem_singleton.2 rfl)
  | node k n => exact h
  | link k cs =>
    unfold WellKinded at h
    unfold Pattern.subst WellKinded
    exact ⟨h.1, WellKindedList.subst h.2 hσ⟩

theorem WellKindedList.subst {σ : Valuation} {cs : List Pattern} (h : WellKindedList cs)
    (hσ : ∀ v ∈ occurrencesList cs, (σ v).WellKinded) : WellKindedList (substList σ cs) := by
  cases cs with
  | nil => exact h
  | cons c cs =>
    unfold WellKindedList at h
    unfold substList WellKindedList
    exact ⟨h.1.subst fun v hv => hσ v (List.mem_append_left _ hv),
      h.2.subst fun v hv => hσ v (List.mem_append_right _ hv)⟩

end

end Credence.Pattern
