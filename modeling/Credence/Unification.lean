import Credence.Substitution
/-!
# Unification

The most general way to make two patterns equal under bindings that are already
there. Equations are kept in a list, always under the current bindings: equal sides
are dropped, a variable is bound and replaced in all that remains, links of one kind
and length are replaced by the equations of their children, and anything else fails.

A binding removes a variable from the equations and the other steps make them
smaller, so the list runs out.
-/

namespace Credence.Unification

open Pattern

/-- Two sides that have to become equal. -/
abbrev Equation := Pattern × Pattern

/-- Replaces one variable. -/
def replace (v : String) (p : Pattern) : Pattern → Pattern :=
  Pattern.subst fun w => if w = v then p else .var w

/-- Replaces one variable on both sides of every equation. -/
def replaceAll (v : String) (p : Pattern) (es : List Equation) : List Equation :=
  es.map fun e => (replace v p e.1, replace v p e.2)

/-- The variables of a list of equations. -/
def occurring : List Equation → List String
  | [] => []
  | e :: es => e.1.occurrences ++ e.2.occurrences ++ occurring es

/-- The size of a list of equations. -/
def weight : List Equation → Nat
  | [] => 0
  | e :: es => e.1.size + e.2.size + weight es

/-! ## Why the list runs out -/

mutual

theorem mem_occurrences_subst (σ : String → Pattern) (p : Pattern) (w : String) :
    w ∈ (p.subst σ).occurrences ↔ ∃ v ∈ p.occurrences, w ∈ (σ v).occurrences := by
  cases p with
  | var v => simp [subst, occurrences]
  | node k n => simp [subst, occurrences]
  | link k cs =>
    simp only [subst, occurrences]
    exact mem_occurrencesList_subst σ cs w

theorem mem_occurrencesList_subst (σ : String → Pattern) (cs : List Pattern) (w : String) :
    w ∈ occurrencesList (substList σ cs) ↔
      ∃ v ∈ occurrencesList cs, w ∈ (σ v).occurrences := by
  cases cs with
  | nil => simp [substList, occurrencesList]
  | cons c cs =>
    simp only [substList, occurrencesList, List.mem_append, mem_occurrences_subst σ c w,
      mem_occurrencesList_subst σ cs w]
    constructor
    · rintro (⟨v, h, hw⟩ | ⟨v, h, hw⟩)
      · exact ⟨v, Or.inl h, hw⟩
      · exact ⟨v, Or.inr h, hw⟩
    · rintro ⟨v, h | h, hw⟩
      · exact Or.inl ⟨v, h, hw⟩
      · exact Or.inr ⟨v, h, hw⟩

end

theorem mem_occurrences_replace {v w : String} {p q : Pattern}
    (h : w ∈ (replace v p q).occurrences) :
    (w ∈ q.occurrences ∧ w ≠ v) ∨ w ∈ p.occurrences := by
  obtain ⟨u, hu, hw⟩ := (mem_occurrences_subst _ q w).1 h
  by_cases huv : u = v
  · simp only [huv, if_true] at hw
    exact Or.inr hw
  · simp only [huv, if_false, occurrences, List.mem_singleton] at hw
    subst hw
    exact Or.inl ⟨hu, huv⟩

theorem mem_occurring_replaceAll {v w : String} {p : Pattern} {es : List Equation}
    (h : w ∈ occurring (replaceAll v p es)) :
    (w ∈ occurring es ∧ w ≠ v) ∨ w ∈ p.occurrences := by
  induction es with
  | nil => simp [replaceAll, occurring] at h
  | cons e es ih =>
    simp only [replaceAll, List.map_cons, occurring, List.mem_append] at h ih ⊢
    rcases h with (h | h) | h
    · rcases mem_occurrences_replace h with ⟨h, hv⟩ | h
      · exact Or.inl ⟨Or.inl (Or.inl h), hv⟩
      · exact Or.inr h
    · rcases mem_occurrences_replace h with ⟨h, hv⟩ | h
      · exact Or.inl ⟨Or.inl (Or.inr h), hv⟩
      · exact Or.inr h
    · rcases ih h with ⟨h, hv⟩ | h
      · exact Or.inl ⟨Or.inr h, hv⟩
      · exact Or.inr h

/-- Binding a variable that does not occur in its value leaves fewer variables. -/
theorem differing_replaceAll_lt {v : String} {p : Pattern} {es : List Equation} {vs : List String}
    (hv : v ∈ vs) (hp : v ∉ p.occurrences) (hps : ∀ w ∈ p.occurrences, w ∈ vs)
    (hes : ∀ w ∈ occurring es, w ∈ vs) :
    differing (occurring (replaceAll v p es)) < differing vs :=
  differing_lt hv fun w hw => by
    rcases mem_occurring_replaceAll hw with ⟨h, hne⟩ | h
    · exact ⟨hes w h, hne⟩
    · exact ⟨hps w h, fun e => hp (e ▸ h)⟩

theorem mem_occurring_append {w : String} {es fs : List Equation} :
    w ∈ occurring (es ++ fs) ↔ w ∈ occurring es ∨ w ∈ occurring fs := by
  induction es with
  | nil => simp [occurring]
  | cons e es ih => simp [occurring, ih, or_assoc]

theorem mem_occurring_zip {w : String} {ps qs : List Pattern}
    (h : w ∈ occurring (ps.zip qs)) : w ∈ occurrencesList ps ∨ w ∈ occurrencesList qs := by
  induction ps generalizing qs with
  | nil => simp [occurring] at h
  | cons p ps ih =>
    cases qs with
    | nil => simp [occurring] at h
    | cons q qs =>
      simp only [List.zip_cons_cons, occurring, List.mem_append, occurrencesList] at h ⊢
      rcases h with (h | h) | h
      · exact Or.inl (Or.inl h)
      · exact Or.inr (Or.inl h)
      · rcases ih h with h | h
        · exact Or.inl (Or.inr h)
        · exact Or.inr (Or.inr h)

theorem weight_append (es fs : List Equation) : weight (es ++ fs) = weight es + weight fs := by
  induction es with
  | nil => simp [weight]
  | cons e es ih => simp [weight, ih]; omega

theorem weight_zip_le (ps qs : List Pattern) :
    weight (ps.zip qs) ≤ sizeList ps + sizeList qs := by
  induction ps generalizing qs with
  | nil => simp [weight]
  | cons p ps ih =>
    cases qs with
    | nil => simp [weight]
    | cons q qs => have := ih qs; simp [weight, sizeList]; omega

/-! ## Solving -/

/-- Solves equations that are already under the bindings `θ`, extending them. -/
def solve (es : List Equation) (θ : Substitution) : Option Substitution :=
  match es with
  | [] => some θ
  | (p, q) :: rest =>
    if p = q then solve rest θ
    else match p, q with
      | .var v, q =>
        if v ∈ q.occurrences then none else solve (replaceAll v q rest) (θ.insert v q)
      | p, .var v =>
        if v ∈ p.occurrences then none else solve (replaceAll v p rest) (θ.insert v p)
      | .link k ps, .link l qs =>
        if k = l ∧ ps.length = qs.length then solve (ps.zip qs ++ rest) θ else none
      | _, _ => none
termination_by (differing (occurring es), weight es)
decreasing_by
  · refine Prod.Lex.right' _ (differing_le fun w hw => ?_) ?_
    · simp [occurring, hw]
    · have := size_pos p
      simp only [weight]; omega
  · refine Prod.Lex.left _ _ (differing_replaceAll_lt ?_ ‹_› ?_ ?_)
    · simp [occurring, occurrences]
    · intro w hw; simp [occurring, hw]
    · intro w hw; simp [occurring, hw]
  · refine Prod.Lex.left _ _ (differing_replaceAll_lt ?_ ‹_› ?_ ?_)
    · simp [occurring, occurrences]
    · intro w hw; simp [occurring, hw]
    · intro w hw; simp [occurring, hw]
  · refine Prod.Lex.right' _ (differing_le fun w hw => ?_) ?_
    · rcases mem_occurring_append.1 hw with h | h
      · rcases mem_occurring_zip h with h | h <;> simp [occurring, occurrences, h]
      · simp [occurring, h]
    · have := weight_zip_le ps qs
      simp only [weight_append, weight, size]; omega

/-- The most general unifier of two patterns that extends the bindings `θ`. -/
def unify (p q : Pattern) (θ : Substitution) : Option Substitution :=
  solve [(θ.apply p, θ.apply q)] θ

end Credence.Unification
