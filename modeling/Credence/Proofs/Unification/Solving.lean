import Credence.Proofs.Substitution.Solution
/-!
# What solving equations finds

Solving keeps every binding and makes no cycle, and the solutions of the result are
the solutions of the bindings that were there which make both sides of every equation
equal. If solving fails there are none. One lemma for each rule says how the solutions
of the equations change, and the theorem follows the recursion.
-/

namespace Credence.Unification

open Pattern Substitution

/-- Whether a valuation makes both sides of every equation equal. -/
def Equalizes (σ : Valuation) (es : List Equation) : Prop :=
  ∀ e ∈ es, e.1.subst σ = e.2.subst σ

/-! ## One rule at a time -/

theorem equalizes_cons {σ : Valuation} {e : Equation} {es : List Equation} :
    Equalizes σ (e :: es) ↔ e.1.subst σ = e.2.subst σ ∧ Equalizes σ es :=
  List.forall_mem_cons

theorem equalizes_append {σ : Valuation} {es fs : List Equation} :
    Equalizes σ (es ++ fs) ↔ Equalizes σ es ∧ Equalizes σ fs :=
  List.forall_mem_append

theorem subst_replace {σ : Valuation} {v : String} {p : Pattern} (h : σ v = p.subst σ)
    (q : Pattern) : (replace v p q).subst σ = q.subst σ := by
  unfold replace
  rw [subst_subst]
  refine subst_congr fun w _ => ?_
  split
  · next hw => rw [hw, h]
  · rfl

theorem equalizes_replaceAll {σ : Valuation} {v : String} {p : Pattern} (h : σ v = p.subst σ)
    (es : List Equation) : Equalizes σ (replaceAll v p es) ↔ Equalizes σ es := by
  unfold Equalizes replaceAll
  rw [List.forall_mem_map]
  simp only [subst_replace h]

theorem equalizes_zip {σ : Valuation} {ps qs : List Pattern} (h : ps.length = qs.length) :
    Equalizes σ (ps.zip qs) ↔ substList σ ps = substList σ qs := by
  induction ps generalizing qs with
  | nil =>
    obtain rfl := List.length_eq_zero_iff.1 h.symm
    simp [Equalizes]
  | cons p ps ih =>
    cases qs with
    | nil => cases h
    | cons q qs =>
      rw [List.zip_cons_cons, equalizes_cons, ih (Nat.succ.inj h)]
      simp only [substList, List.cons.injEq]

theorem length_substList (σ : Valuation) (ps : List Pattern) :
    (substList σ ps).length = ps.length := by
  rw [substList_eq_map, List.length_map]

/-- Links are equal under a valuation if they agree in kind and length and their children are. -/
theorem subst_link_eq_iff {σ : Valuation} {k l : Kind} {ps qs : List Pattern} :
    (link k ps).subst σ = (link l qs).subst σ ↔
      (k = l ∧ ps.length = qs.length) ∧ Equalizes σ (ps.zip qs) := by
  simp only [subst, link.injEq]
  constructor
  · rintro ⟨hk, hs⟩
    have hlen : ps.length = qs.length := by
      rw [← length_substList σ ps, ← length_substList σ qs, hs]
    exact ⟨⟨hk, hlen⟩, (equalizes_zip hlen).2 hs⟩
  · rintro ⟨⟨hk, hlen⟩, hs⟩
    exact ⟨hk, (equalizes_zip hlen).1 hs⟩

/-! ## All rules -/

/-- Whether no variable of the equations is bound. -/
def Unbound (θ : Substitution) (es : List Equation) : Prop := ∀ v ∈ occurring es, θ.get? v = none

/-- What solving equations has to find, for each outcome. -/
structure Solution (es : List Equation) (θ θ' : Substitution) : Prop where
  acyclic : θ'.Acyclic
  keeps : ∀ v p, θ.get? v = some p → θ'.get? v = some p
  solves_iff : ∀ σ, Solves σ θ' ↔ Solves σ θ ∧ Equalizes σ es
  bound : ∀ v, θ'.get? v ≠ none → θ.get? v ≠ none ∨ v ∈ occurring es

/-- What solving equations comes to: bindings that stand for all solutions, or no solution. -/
def Outcome (es : List Equation) (θ : Substitution) : Option Substitution → Prop
  | some θ' => Solution es θ θ'
  | none => ∀ σ, Solves σ θ → ¬ Equalizes σ es

theorem Unbound.replaceAll {θ : Substitution} {v : String} {q : Pattern} {es : List Equation}
    (h : ∀ w ∈ occurring es, θ.get? w = none) (hq : θ.Resolved q) (hv : v ∉ q.occurrences) :
    Unbound (θ.insert v q) (replaceAll v q es) := by
  intro w hw
  rw [Table.get?_insert]
  rcases mem_occurring_replaceAll hw with ⟨hes, hne⟩ | hwq
  · rw [if_neg fun e => hne e.symm]
    exact h w hes
  · rw [if_neg (by rintro rfl; exact hv hwq)]
    exact hq w hwq

/-- Binding a variable to the other side of its equation. -/
theorem outcome_bind {θ : Substitution} {v : String} {q : Pattern} {es rest : List Equation}
    {result : Option Substitution} (hv : θ.get? v = none)
    (hes : ∀ σ, Equalizes σ es ↔ σ v = q.subst σ ∧ Equalizes σ rest)
    (hocc : ∀ w, w = v ∨ w ∈ q.occurrences ∨ w ∈ occurring rest → w ∈ occurring es)
    (h : Outcome (replaceAll v q rest) (θ.insert v q) result) : Outcome es θ result := by
  have hsol : ∀ σ, Solves σ (θ.insert v q) ∧ Equalizes σ (replaceAll v q rest) ↔
      Solves σ θ ∧ Equalizes σ es := by
    intro σ
    rw [solves_insert_iff hv, hes]
    constructor
    · rintro ⟨⟨hs, hvq⟩, hr⟩
      exact ⟨hs, hvq, (equalizes_replaceAll hvq rest).1 hr⟩
    · rintro ⟨hs, hvq, hr⟩
      exact ⟨⟨hs, hvq⟩, (equalizes_replaceAll hvq rest).2 hr⟩
  -- A solution of the old equations is one of the new ones: the variable has the value of `q`.
  cases result with
  | none =>
    intro σ hσ hall
    obtain ⟨h1, h2⟩ := (hsol σ).2 ⟨hσ, hall⟩
    exact h σ h1 h2
  | some θ' =>
    refine ⟨h.acyclic, ?_, ?_, ?_⟩
    · intro w p hw
      exact h.keeps w p (get?_insert_of_bound hv hw)
    · intro σ
      rw [h.solves_iff σ, hsol]
    · intro w hw
      rcases h.bound w hw with hb | ho
      · rw [Table.get?_insert] at hb
        split at hb
        · next hvw => exact .inr (hocc w (.inl hvw.symm))
        · exact .inl hb
      · rcases mem_occurring_replaceAll ho with ⟨hr, _⟩ | hq
        · exact .inr (hocc w (.inr (.inr hr)))
        · exact .inr (hocc w (.inr (.inl hq)))

/-- Replacing equations by others with the same solutions and no new variables. -/
theorem outcome_congr {θ : Substitution} {es fs : List Equation} {result : Option Substitution}
    (hes : ∀ σ, Equalizes σ es ↔ Equalizes σ fs) (hocc : ∀ w ∈ occurring fs, w ∈ occurring es)
    (h : Outcome fs θ result) : Outcome es θ result := by
  cases result with
  | none => exact fun σ hσ hall => h σ hσ ((hes σ).1 hall)
  | some θ' =>
    refine ⟨h.acyclic, h.keeps, ?_, ?_⟩
    · intro σ
      rw [h.solves_iff σ, hes σ]
    · intro w hw
      exact (h.bound w hw).imp id (hocc w)

theorem unbound_of_occurs {θ : Substitution} {es fs : List Equation} (h : Unbound θ es)
    (hocc : ∀ w ∈ occurring fs, w ∈ occurring es) : Unbound θ fs :=
  fun w hw => h w (hocc w hw)

/-- A variable is bound to the other side, which does not hold it: solving goes on below. -/
theorem outcome_solve_bind {θ : Substitution} {v : String} {q : Pattern} {es rest : List Equation}
    (hθ : θ.Acyclic) (hun : Unbound θ es) (hvq : v ∉ q.occurrences)
    (hes : ∀ σ, Equalizes σ es ↔ σ v = q.subst σ ∧ Equalizes σ rest)
    (hocc : ∀ w, w = v ∨ w ∈ q.occurrences ∨ w ∈ occurring rest → w ∈ occurring es)
    (ih : Acyclic (θ.insert v q) → Unbound (θ.insert v q) (replaceAll v q rest) →
      Outcome (replaceAll v q rest) (θ.insert v q) (solve (replaceAll v q rest) (θ.insert v q))) :
    Outcome es θ (solve (replaceAll v q rest) (θ.insert v q)) := by
  have hv : θ.get? v = none := hun v (hocc v (.inl rfl))
  have hq : θ.Resolved q := fun w hw => hun w (hocc w (.inr (.inl hw)))
  have hrest : Unbound θ rest := fun w hw => hun w (hocc w (.inr (.inr hw)))
  exact outcome_bind hv hes hocc (ih (hθ.insert hq hvq) (Unbound.replaceAll hrest hq hvq))

/-- Solving equations over unbound variables finds all their solutions. -/
theorem outcome_solve (es : List Equation) (θ : Substitution) (hθ : θ.Acyclic)
    (hes : Unbound θ es) : Outcome es θ (solve es θ) := by
  fun_induction solve es θ with
  | case1 θ => exact ⟨hθ, fun _ _ h => h, fun σ => by simp [Equalizes], fun _ h => .inl h⟩
  | case2 θ q rest ih =>
    -- Both sides are the same: the equation is dropped.
    have hocc : ∀ w ∈ occurring rest, w ∈ occurring ((q, q) :: rest) :=
      fun w hw => List.mem_append_right _ hw
    refine outcome_congr (fun σ => ?_) hocc (ih hθ (unbound_of_occurs hes hocc))
    rw [equalizes_cons]
    exact ⟨fun h => h.2, fun h => ⟨rfl, h⟩⟩
  | case3 θ rest v q hin hne =>
    -- A variable that stands properly inside the other side has no solution.
    intro σ _ hall
    exact ne_subst_of_occurs hin (fun e => hne e.symm) (equalizes_cons.1 hall).1
  | case4 θ rest v q hnot hne ih =>
    -- The variable is bound and replaced everywhere in the rest.
    refine outcome_solve_bind hθ hes hnot (fun σ => equalizes_cons) (fun w hw => ?_) ih
    simpa [occurring, occurrences, or_assoc] using hw
  | case5 θ rest p v _ hin hne =>
    intro σ _ hall
    exact ne_subst_of_occurs hin hne (equalizes_cons.1 hall).1.symm
  | case6 θ rest p v _ hnot hne ih =>
    refine outcome_solve_bind hθ hes hnot (fun σ => ?_) (fun w hw => ?_) ih
    · rw [equalizes_cons]
      exact and_congr_left' eq_comm
    · simpa [occurring, occurrences, or_assoc, or_left_comm] using hw
  | case7 θ rest k ps l qs hkl hne ih =>
    -- Links of one kind and length: their children are equated in front of the rest.
    have hocc : ∀ w ∈ occurring (ps.zip qs ++ rest),
        w ∈ occurring ((link k ps, link l qs) :: rest) := by
      intro w hw
      simp only [occurring, occurrences, List.mem_append]
      rcases mem_occurring_append.1 hw with h | h
      · exact .inl (mem_occurring_zip h)
      · exact .inr h
    refine outcome_congr (fun σ => ?_) hocc (ih hθ (unbound_of_occurs hes hocc))
    rw [equalizes_cons, equalizes_append, subst_link_eq_iff]
    exact ⟨fun h => ⟨h.1.2, h.2⟩, fun h => ⟨⟨hkl, h.1⟩, h.2⟩⟩
  | case8 θ rest k ps l qs hkl hne =>
    intro σ _ hall
    exact hkl (subst_link_eq_iff.1 (equalizes_cons.1 hall).1).1
  | case9 θ p q rest hne hp hq hlinks =>
    -- What is left are a node and something else that is not a variable.
    intro σ _ hall
    have heq := (equalizes_cons.1 hall).1
    cases p with
    | var v => exact hp v rfl
    | node k n =>
      cases q with
      | var w => exact hq w rfl
      | node l m => exact hne heq
      | link l qs => cases heq
    | link k ps =>
      cases q with
      | var w => exact hq w rfl
      | node l m => cases heq
      | link l qs => exact hlinks k ps l qs rfl rfl

/-! ## Unifying -/

/-- What unifying two patterns has to find: bindings whose solutions are those solutions of the
given ones that make the patterns equal. -/
structure Unifies (p q : Pattern) (θ θ' : Substitution) : Prop where
  acyclic : θ'.Acyclic
  keeps : ∀ v r, θ.get? v = some r → θ'.get? v = some r
  solves_iff : ∀ σ, Solves σ θ' ↔ Solves σ θ ∧ p.subst σ = q.subst σ
  bound : ∀ v, θ'.get? v ≠ none →
    θ.get? v ≠ none ∨ v ∈ (θ.apply p).occurrences ∨ v ∈ (θ.apply q).occurrences

theorem outcome_unify {θ : Substitution} (hθ : θ.Acyclic) (p q : Pattern) :
    Outcome [(θ.apply p, θ.apply q)] θ (unify p q θ) := by
  refine outcome_solve _ θ hθ fun v hv => ?_
  simp only [occurring, List.append_nil, List.mem_append] at hv
  rcases hv with hv | hv
  · exact hθ.resolved_apply p v hv
  · exact hθ.resolved_apply q v hv

theorem equalizes_apply {θ : Substitution} {σ : Valuation} (hσ : Solves σ θ) (p q : Pattern) :
    Equalizes σ [(θ.apply p, θ.apply q)] ↔ p.subst σ = q.subst σ := by
  unfold Equalizes
  rw [List.forall_mem_singleton]
  show (θ.apply p).subst σ = (θ.apply q).subst σ ↔ _
  rw [hσ.subst_apply, hσ.subst_apply]

/-- Unification finds the most general bindings that make two patterns equal. -/
theorem unifies_of_unify {θ θ' : Substitution} (hθ : θ.Acyclic) {p q : Pattern}
    (h : unify p q θ = some θ') : Unifies p q θ θ' := by
  have hout := outcome_unify hθ p q
  rw [h] at hout
  refine ⟨hout.acyclic, hout.keeps, fun σ => ?_, fun v hv => ?_⟩
  · rw [hout.solves_iff σ]
    constructor
    · rintro ⟨hs, he⟩
      exact ⟨hs, (equalizes_apply hs p q).1 he⟩
    · rintro ⟨hs, he⟩
      exact ⟨hs, (equalizes_apply hs p q).2 he⟩
  · simpa [occurring] using hout.bound v hv

/-- If unification fails, no solution of the bindings makes the patterns equal. -/
theorem ne_of_unify_eq_none {θ : Substitution} (hθ : θ.Acyclic) {p q : Pattern}
    (h : unify p q θ = none) {σ : Valuation} (hσ : Solves σ θ) : p.subst σ ≠ q.subst σ := by
  have hout := outcome_unify hθ p q
  rw [h] at hout
  exact fun he => hout σ hσ ((equalizes_apply hσ p q).2 he)

end Credence.Unification
