import Credence.Proofs.Pattern.Instance
/-!
# Solutions of substitutions

A valuation solves a substitution when it gives every bound variable the instance of
its value. A substitution without cycles has a solution that replaces variables until
only unbound ones are left; as many rounds as there are bindings are enough, as the
level of the variables falls in every round.
-/

namespace Credence

open Pattern

namespace Substitution

/-- Whether a valuation agrees with every binding of a substitution. -/
def Solves (σ : Valuation) (θ : Substitution) : Prop :=
  ∀ v p, θ.get? v = some p → σ v = p.subst σ

/-- Whether bound variables can be ranked so that values mention lower ones only. -/
def Acyclic (θ : Substitution) : Prop :=
  ∃ rank : String → Nat, ∀ v p, θ.get? v = some p →
    ∀ w ∈ p.occurrences, θ.get? w ≠ none → rank w < rank v

/-- Whether a pattern mentions no bound variable. -/
def Resolved (θ : Substitution) (p : Pattern) : Prop := ∀ v ∈ p.occurrences, θ.get? v = none

/-- The value of a variable once all bindings are followed. -/
def value (θ : Substitution) : Valuation := fun v => θ.apply (.var v)

/-- The value of a variable after one round. -/
def step (θ : Substitution) : Valuation := fun v => (θ.get? v).getD (.var v)

theorem acyclic_empty : Acyclic .empty := ⟨fun _ => 0, nofun⟩

theorem solves_empty (σ : Valuation) : Solves σ .empty := nofun

theorem apply_empty (p : Pattern) : apply .empty p = p := rfl

/-! ## Rounds -/

variable {θ : Substitution}

theorem follow_eq_subst (n : Nat) (p : Pattern) :
    θ.follow n p = p.subst fun v => θ.follow n (.var v) := by
  cases n with
  | zero => exact (subst_var p).symm
  | succ n => rfl

theorem follow_subst (n : Nat) (σ : Valuation) (p : Pattern) :
    θ.follow n (p.subst σ) = p.subst fun v => θ.follow n (σ v) := by
  rw [follow_eq_subst, subst_subst]
  exact subst_congr fun v _ => (follow_eq_subst n (σ v)).symm

theorem follow_of_resolved {p : Pattern} (h : θ.Resolved p) (n : Nat) : θ.follow n p = p := by
  rw [follow_eq_subst]
  refine Eq.trans (subst_congr fun v hv => ?_) (subst_var p)
  cases n with
  | zero => rfl
  | succ n =>
    unfold follow subst
    rw [h v hv]

theorem follow_succ (n : Nat) (p : Pattern) : θ.follow (n + 1) p = θ.follow n (p.subst θ.step) := by
  rw [follow_subst]
  show p.subst _ = _
  refine subst_congr fun v _ => ?_
  unfold step
  cases hv : θ.get? v with
  | some q => rfl
  | none =>
    refine (follow_of_resolved ?_ n).symm
    intro w hw
    rw [List.mem_singleton.1 hw, hv]

theorem follow_succ' (n : Nat) (p : Pattern) : θ.follow (n + 1) p = (θ.follow n p).subst θ.step := by
  induction n generalizing p with
  | zero => exact follow_succ 0 p
  | succ n ih => rw [follow_succ, ih, ← follow_succ]

/-- Following bindings changes nothing that a solution sees. -/
theorem Solves.subst_follow {σ : Valuation} (h : Solves σ θ) (n : Nat) (p : Pattern) :
    (θ.follow n p).subst σ = p.subst σ := by
  induction n generalizing p with
  | zero => rfl
  | succ n ih =>
    rw [follow_succ, ih, subst_subst]
    refine subst_congr fun v _ => ?_
    unfold step
    cases hv : θ.get? v with
    | some q => exact (h v q hv).symm
    | none => rfl

theorem Solves.subst_apply {σ : Valuation} (h : Solves σ θ) (p : Pattern) :
    (θ.apply p).subst σ = p.subst σ := h.subst_follow _ p

/-! ## Levels -/

/-- The number of bound variables of lower rank. -/
def level (θ : Substitution) (rank : String → Nat) (v : String) : Nat :=
  differing (θ.keys.filter fun w => rank w < rank v)

theorem mem_keys {v : String} : v ∈ θ.keys ↔ θ.get? v ≠ none := by
  unfold Table.get? Table.keys
  rw [ne_eq, Table.find_eq_none_iff, Classical.not_not]

theorem level_lt {rank : String → Nat} {v w : String} (hw : θ.get? w ≠ none)
    (h : rank w < rank v) : θ.level rank w < θ.level rank v := by
  refine differing_lt (v := w) (List.mem_filter.2 ⟨mem_keys.2 hw, by simpa using h⟩) ?_
  intro u hu
  obtain ⟨hk, hlt⟩ := List.mem_filter.1 hu
  have hlt : rank u < rank w := by simpa using hlt
  refine ⟨List.mem_filter.2 ⟨hk, by simpa using Nat.lt_trans hlt h⟩, ?_⟩
  rintro rfl
  exact Nat.lt_irrefl _ hlt

theorem differing_le_length {α : Type} [DecidableEq α] (xs : List α) :
    differing xs ≤ xs.length :=
  length_le_of_subset (nodup_distinct xs) fun x hx => (mem_distinct x xs).1 hx

theorem level_lt_size {rank : String → Nat} {v : String} (hv : θ.get? v ≠ none) :
    θ.level rank v < θ.size := by
  have h1 : θ.level rank v < differing θ.keys := by
    refine differing_lt (v := v) (mem_keys.2 hv) fun u hu => ?_
    obtain ⟨hk, hlt⟩ := List.mem_filter.1 hu
    refine ⟨hk, ?_⟩
    rintro rfl
    simp at hlt
  have h2 : differing θ.keys ≤ θ.size := by
    have := differing_le_length θ.keys
    unfold Table.keys Table.size at *
    rwa [List.length_map] at this
  exact Nat.lt_of_lt_of_le h1 h2

theorem resolved_follow {rank : String → Nat}
    (h : ∀ v p, θ.get? v = some p → ∀ w ∈ p.occurrences, θ.get? w ≠ none → rank w < rank v)
    (n : Nat) {p : Pattern} (hp : ∀ v ∈ p.occurrences, θ.get? v ≠ none → θ.level rank v < n) :
    θ.Resolved (θ.follow n p) := by
  induction n generalizing p with
  | zero =>
    intro v hv
    cases hb : θ.get? v with
    | none => rfl
    | some q =>
      have hlt := hp v hv (by rw [hb]; exact Option.some_ne_none q)
      exact absurd hlt (Nat.not_lt_zero _)
  | succ n ih =>
    rw [follow_succ]
    refine ih fun w hw hbw => ?_
    obtain ⟨v, hv, hw⟩ := (Unification.mem_occurrences_subst _ _ _).1 hw
    unfold step at hw
    cases hb : θ.get? v with
    | none =>
      rw [hb] at hw
      rw [List.mem_singleton.1 hw] at hbw
      exact absurd hb hbw
    | some q =>
      rw [hb] at hw
      have hlt := level_lt hbw (h v q hb w hw hbw)
      have := hp v hv (by rw [hb]; exact Option.some_ne_none q)
      omega

/-! ## Substitutions without cycles -/

theorem Acyclic.resolved_apply (h : θ.Acyclic) (p : Pattern) : θ.Resolved (θ.apply p) := by
  obtain ⟨rank, hr⟩ := h
  exact resolved_follow hr _ fun v _ hv => level_lt_size hv

theorem apply_eq_subst (p : Pattern) : θ.apply p = p.subst θ.value := follow_eq_subst _ p

/-- The value of a bound variable is the instance of what it is bound to. -/
theorem Acyclic.solves_value (h : θ.Acyclic) : Solves θ.value θ := by
  intro v p hv
  have hres := h.resolved_apply (.var v)
  have hfix : (θ.apply (.var v)).subst θ.step = θ.apply (.var v) := by
    refine Eq.trans (subst_congr fun w hw => ?_) (subst_var _)
    unfold step
    rw [hres w hw]
    rfl
  -- Following the bindings once more than they are many changes nothing, so the first can be seen.
  show θ.apply (.var v) = _
  rw [← hfix]
  unfold apply
  rw [← follow_succ', follow_succ]
  show θ.follow _ (θ.step v) = _
  unfold step
  rw [hv]
  exact apply_eq_subst p

/-- Applying bindings once more changes nothing. -/
theorem Acyclic.apply_apply (h : θ.Acyclic) (p : Pattern) : θ.apply (θ.apply p) = θ.apply p :=
  follow_of_resolved (h.resolved_apply p) _

/-- A pattern that the bindings make ground has its value under every solution. -/
theorem Solves.subst_eq_apply {σ : Valuation} (h : Solves σ θ) {p : Pattern}
    (hp : (θ.apply p).isGround = true) : p.subst σ = θ.apply p := by
  rw [← h.subst_apply p, subst_of_isGround hp]

/-! ## One more binding -/

theorem get?_insert_of_bound {v w : String} {p q : Pattern} (hv : θ.get? v = none)
    (hw : θ.get? w = some q) : (θ.insert v p).get? w = some q := by
  rw [Table.get?_insert, if_neg, hw]
  rintro rfl
  rw [hv] at hw
  cases hw

theorem solves_insert_iff {v : String} {p : Pattern} (hv : θ.get? v = none) {σ : Valuation} :
    Solves σ (θ.insert v p) ↔ Solves σ θ ∧ σ v = p.subst σ := by
  constructor
  · intro h
    refine ⟨fun w q hw => h w q (get?_insert_of_bound hv hw), h v p ?_⟩
    rw [Table.get?_insert, if_pos rfl]
  · rintro ⟨h, hp⟩ w q hw
    rw [Table.get?_insert] at hw
    split at hw
    · next hvw =>
      cases hw
      rw [← hvw]
      exact hp
    · exact h w q hw

/-- Binding an unbound variable to a pattern of other unbound variables makes no cycle. -/
theorem Acyclic.insert (h : θ.Acyclic) {v : String} {p : Pattern} (hp : θ.Resolved p)
    (hvp : v ∉ p.occurrences) : Acyclic (θ.insert v p) := by
  obtain ⟨rank, hr⟩ := h
  -- The new variable gets the lowest rank: what it is bound to has no bound variable.
  refine ⟨fun w => if w = v then 0 else rank w + 1, fun w q hw u hu hbu => ?_⟩
  rw [Table.get?_insert] at hw hbu
  split at hw
  · next hvw =>
    cases hw
    have hne : ¬ v = u := fun e => hvp (e ▸ hu)
    rw [if_neg hne, hp u hu] at hbu
    exact absurd rfl hbu
  · next hvw =>
    have hwv : ¬ w = v := fun e => hvw e.symm
    simp only [if_neg hwv]
    by_cases huv : u = v
    · rw [if_pos huv]
      exact Nat.succ_pos _
    · rw [if_neg huv]
      rw [if_neg fun e => huv e.symm] at hbu
      exact Nat.succ_lt_succ (hr w q hw u hu hbu)

end Substitution

end Credence
