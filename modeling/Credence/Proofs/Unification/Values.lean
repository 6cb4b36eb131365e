import Credence.Proofs.Unification.Solving
/-!
# What unification keeps

All values that unification binds are parts of the equations, after replacing some
variables. So a property of the patterns that passes to parts and to instances is a
property of all values. Two such properties matter: being well kinded, and using
certain variables only.
-/

namespace Credence

open Pattern

/-- A property that passes to the children and the variables of a pattern, and to an instance by
values that have it. -/
structure Pattern.Hereditary (P : Pattern → Prop) : Prop where
  children : ∀ {k cs}, P (.link k cs) → ∀ c ∈ cs, P c
  vars : ∀ {p}, P p → ∀ v ∈ p.occurrences, P (.var v)
  instances : ∀ {p} {σ : Valuation}, P p → (∀ v ∈ p.occurrences, P (σ v)) → P (p.subst σ)

namespace Substitution

/-- Whether all values of a substitution have a property. -/
def Values (P : Pattern → Prop) (θ : Substitution) : Prop := ∀ v p, θ.get? v = some p → P p

variable {P : Pattern → Prop} {θ : Substitution}

theorem values_empty (P : Pattern → Prop) : Values P .empty := nofun

theorem Values.insert (h : Values P θ) {p : Pattern} (hp : P p) (v : String) :
    Values P (θ.insert v p) := by
  intro w q hw
  rw [Table.get?_insert] at hw
  split at hw
  · cases hw
    exact hp
  · exact h w q hw

theorem Values.follow (hP : Hereditary P) (h : Values P θ) (n : Nat) {p : Pattern} (hp : P p) :
    P (θ.follow n p) := by
  induction n generalizing p with
  | zero => exact hp
  | succ n ih =>
    rw [follow_succ]
    refine ih (hP.instances hp fun v hv => ?_)
    unfold step
    cases hb : θ.get? v with
    | none => exact hP.vars hp v hv
    | some q => exact h v q hb

theorem Values.apply (hP : Hereditary P) (h : Values P θ) {p : Pattern} (hp : P p) :
    P (θ.apply p) := h.follow hP _ hp

end Substitution

namespace Unification

open Substitution

variable {P : Pattern → Prop}

/-- Whether both sides of every equation have a property. -/
def Sides (P : Pattern → Prop) (es : List Equation) : Prop := ∀ e ∈ es, P e.1 ∧ P e.2

theorem holds_replace (hP : Hereditary P) {v : String} {p q : Pattern} (hp : P p) (hq : P q) :
    P (replace v p q) := by
  refine hP.instances hq fun w hw => ?_
  split
  · exact hp
  · exact hP.vars hq w hw

theorem Sides.replaceAll (hP : Hereditary P) {es : List Equation} (h : Sides P es) {p : Pattern}
    (hp : P p) (v : String) : Sides P (replaceAll v p es) := by
  intro e he
  obtain ⟨d, hd, rfl⟩ := List.mem_map.1 he
  exact ⟨holds_replace hP hp (h d hd).1, holds_replace hP hp (h d hd).2⟩

theorem sides_zip {ps qs : List Pattern} (hp : ∀ p ∈ ps, P p) (hq : ∀ q ∈ qs, P q) :
    Sides P (ps.zip qs) := by
  intro e he
  obtain ⟨h1, h2⟩ := List.of_mem_zip he
  exact ⟨hp _ h1, hq _ h2⟩

theorem values_solve (hP : Hereditary P) {es : List Equation} {θ θ' : Substitution}
    (hes : Sides P es) (hθ : Values P θ) (h : solve es θ = some θ') : Values P θ' := by
  fun_induction solve es θ with
  | case1 θ =>
    cases h
    exact hθ
  | case2 θ q rest ih => exact ih (List.forall_mem_cons.1 hes).2 hθ h
  | case3 => cases h
  | case4 θ rest v q _ _ ih =>
    obtain ⟨hq, hrest⟩ := List.forall_mem_cons.1 hes
    exact ih (Sides.replaceAll hP hrest hq.2 v) (hθ.insert hq.2 v) h
  | case5 => cases h
  | case6 θ rest p v _ _ _ ih =>
    obtain ⟨hp, hrest⟩ := List.forall_mem_cons.1 hes
    exact ih (Sides.replaceAll hP hrest hp.1 v) (hθ.insert hp.1 v) h
  | case7 θ rest k ps l qs _ _ ih =>
    obtain ⟨⟨hp, hq⟩, hrest⟩ := List.forall_mem_cons.1 hes
    exact ih (List.forall_mem_append.2 ⟨sides_zip (hP.children hp) (hP.children hq), hrest⟩) hθ h
  | case8 => cases h
  | case9 => cases h

/-- What both patterns and all values have, the values of their unifier have. -/
theorem values_unify (hP : Hereditary P) {θ θ' : Substitution} (hθ : Values P θ) {p q : Pattern}
    (hp : P p) (hq : P q) (h : unify p q θ = some θ') : Values P θ' :=
  values_solve hP (List.forall_mem_singleton.2 ⟨hθ.apply hP hp, hθ.apply hP hq⟩) hθ h

end Unification

/-! ## Kinds -/

theorem Pattern.hereditary_wellKinded : Hereditary WellKinded where
  children h := by
    unfold WellKinded at h
    exact wellKindedList_iff.1 h.2
  vars _ _ _ := trivial
  instances h hσ := h.subst hσ

namespace Substitution

/-- Whether all values are well kinded. -/
abbrev Kinded (θ : Substitution) : Prop := Values WellKinded θ

theorem Kinded.apply {θ : Substitution} (h : θ.Kinded) {p : Pattern} (hp : p.WellKinded) :
    (θ.apply p).WellKinded := Values.apply hereditary_wellKinded h hp

end Substitution

/-! ## Variables -/

/-- Whether a pattern uses certain variables only. -/
def Pattern.Over (V : String → Prop) (p : Pattern) : Prop := ∀ v ∈ p.occurrences, V v

theorem Pattern.hereditary_over (V : String → Prop) : Hereditary (Over V) where
  children h c hc v hv := h v (mem_occurrencesList.2 ⟨c, hc, hv⟩)
  vars h v hv w hw := by
    rw [List.mem_singleton.1 hw]
    exact h v hv
  instances h hσ w hw := by
    obtain ⟨v, hv, hw⟩ := (Unification.mem_occurrences_subst _ _ w).1 hw
    exact hσ v hv w hw

namespace Substitution

/-- Whether a substitution binds certain variables only, to patterns over them. -/
structure Over (V : String → Prop) (θ : Substitution) : Prop where
  keys : ∀ v, θ.get? v ≠ none → V v
  values : Values (Pattern.Over V) θ

theorem over_empty (V : String → Prop) : Over V .empty :=
  ⟨fun _ h => absurd rfl h, values_empty _⟩

theorem Over.apply {V : String → Prop} {θ : Substitution} (h : θ.Over V) {p : Pattern}
    (hp : p.Over V) : (θ.apply p).Over V := Values.apply (hereditary_over V) h.values hp

theorem Over.mono {V W : String → Prop} (hVW : ∀ v, V v → W v) {θ : Substitution}
    (h : θ.Over V) : θ.Over W :=
  ⟨fun v hv => hVW v (h.keys v hv), fun v p hv w hw => hVW w (h.values v p hv w hw)⟩

end Substitution

namespace Unification

open Substitution

/-- Unification uses no variables but those that are there. -/
theorem over_unify {V : String → Prop} {θ θ' : Substitution} (hacyclic : θ.Acyclic)
    (hθ : θ.Over V) {p q : Pattern} (hp : p.Over V) (hq : q.Over V)
    (h : unify p q θ = some θ') : θ'.Over V where
  keys v hv := by
    rcases (unifies_of_unify hacyclic h).bound v hv with hb | ho | ho
    · exact hθ.keys v hb
    · exact hθ.apply hp v ho
    · exact hθ.apply hq v ho
  values := values_unify (hereditary_over V) hθ.values hp hq h

end Unification

end Credence
