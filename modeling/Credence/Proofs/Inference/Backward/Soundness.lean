import Credence.Proofs.Inference.Backward.Facts
import Credence.Proofs.Rule.Renaming
/-!
# Soundness of backward chaining

Every answer of the search comes with a proof tree that is a derivation: its leaves
are stored facts, its inner nodes ground instances of enabled rules. The bindings of
the answer make the goal ground, and the root of the tree is that ground goal.

The bindings stay without cycles, so that later answers only narrow what earlier ones
found; a goal that is ground once keeps its value while its siblings are proven.
-/

namespace Credence.Backward

open Number Pattern Substitution Search

/-- A proof at a depth: facts at the leaves, rule instances below the allowed depth inside. -/
inductive Problem.Proves (pb : Problem) : Nat → Proof → Prop
  | fact {t : Pattern} {c : Float} {depth : Nat} (hd : depth ≤ pb.params.maxSteps)
    (h : pb.HasFact t c) : Proves pb depth (.node t c depth .fact [])
  | rule {r : Rule} {depth : Nat} {ps : List Proof} (hd : depth ≤ pb.params.maxSteps)
    (hr : r ∈ pb.rules.rules) (he : r.enabled = true) {σ : Valuation}
    (hσ : ∀ v, (σ v).isGround = true) (hgoals : ps.map Proof.goal = r.premises.map (subst σ))
    (h : ∀ p ∈ ps, Proves pb (depth + 1) p) :
    Proves pb depth (.node (r.conclusion.subst σ)
      (Proof.least (ps.map Proof.confidence) * r.reliability.toFloat) depth (.rule r.name) ps)

/-- A problem over a store without variable nodes and checked rules of the right kinds. -/
structure Problem.Proper (pb : Problem) : Prop where
  inv : pb.store.Inv
  plain : pb.store.Plain
  checked : ∀ r ∈ pb.rules.rules, r.Checked
  kinded : ∀ r ∈ pb.rules.rules, r.WellKinded

/-! ## Answers -/

/-- What an answer for a goal has to be. -/
structure Proven (pb : Problem) (depth : Nat) (goal : Pattern) (θ θ' : Substitution) (p : Proof) :
    Prop where
  acyclic : θ'.Acyclic
  kinded : θ'.Kinded
  narrows : ∀ σ, Solves σ θ' → Solves σ θ
  ground : (θ'.apply goal).isGround = true
  goal_eq : p.goal = θ'.apply goal
  proves : pb.Proves depth p

/-- What an answer for a list of goals has to be. -/
structure AllProven (pb : Problem) (depth : Nat) (goals : List Pattern) (θ θ' : Substitution)
    (ps : List Proof) : Prop where
  acyclic : θ'.Acyclic
  kinded : θ'.Kinded
  narrows : ∀ σ, Solves σ θ' → Solves σ θ
  ground : ∀ g ∈ goals, (θ'.apply g).isGround = true
  goals_eq : ps.map Proof.goal = goals.map θ'.apply
  proves : ∀ p ∈ ps, pb.Proves depth p

theorem apply_of_narrows {θ θ' : Substitution} (hθ' : θ'.Acyclic)
    (h : ∀ σ, Solves σ θ' → Solves σ θ) (p : Pattern) : θ'.apply (θ.apply p) = θ'.apply p := by
  rw [apply_eq_subst (θ.apply p), (h _ hθ'.solves_value).subst_apply, ← apply_eq_subst]

/-- A goal that is ground keeps its value when the bindings are narrowed. -/
theorem apply_of_ground {θ θ' : Substitution} (hθ' : θ'.Acyclic)
    (h : ∀ σ, Solves σ θ' → Solves σ θ) {p : Pattern} (hp : (θ.apply p).isGround = true) :
    θ'.apply p = θ.apply p := by
  rw [apply_eq_subst p]
  exact (h _ hθ'.solves_value).subst_eq_apply hp

variable {pb : Problem}

/-- Answers for the goals of a list, one after another, make an answer for the list. -/
theorem allProven_of_yields {prove : Pattern → Substitution → Proving (Substitution × Proof)}
    {depth : Nat}
    (hprove : ∀ g θ θ' p, g.WellKinded → θ.Acyclic → θ.Kinded → Yields (prove g θ) (θ', p) →
      Proven pb depth g θ θ' p)
    {goals : List Pattern} (hk : ∀ g ∈ goals, g.WellKinded) {θ θ' : Substitution} {ps : List Proof}
    (hθ : θ.Acyclic) (hθk : θ.Kinded) (h : Yields (proveAll prove goals θ) (θ', ps)) :
    AllProven pb depth goals θ θ' ps := by
  induction goals generalizing θ θ' ps with
  | nil =>
    unfold proveAll at h
    cases h with
    | here => exact ⟨hθ, hθk, fun _ hσ => hσ, nofun, rfl, nofun⟩
    | later h => cases h
  | cons g gs ih =>
    unfold proveAll at h
    obtain ⟨⟨θ₁, p⟩, hp, h⟩ := h.of_bind
    obtain ⟨⟨θ₂, qs⟩, hqs, heq⟩ := h.of_map
    cases heq
    have h1 := hprove g θ θ₁ p (hk g (List.mem_cons_self ..)) hθ hθk hp
    have h2 := ih (fun g hg => hk g (List.mem_cons_of_mem _ hg)) h1.acyclic h1.kinded hqs
    -- What the first goal became is ground, so the later goals leave it as it is.
    have hkeep : θ'.apply g = θ₁.apply g := apply_of_ground h2.acyclic h2.narrows h1.ground
    refine ⟨h2.acyclic, h2.kinded, fun σ hσ => h1.narrows σ (h2.narrows σ hσ), ?_, ?_, ?_⟩
    · intro g' hg'
      rcases List.mem_cons.1 hg' with rfl | hg'
      · rw [hkeep]
        exact h1.ground
      · exact h2.ground g' hg'
    · rw [List.map_cons, List.map_cons, h2.goals_eq, h1.goal_eq, hkeep]
    · intro q hq
      rcases List.mem_cons.1 hq with rfl | hq
      · exact h1.proves
      · exact h2.proves q hq

/-- A fact that matches a goal proves it. -/
theorem proven_of_fact (hpb : pb.Proper) {depth : Nat} (hd : depth ≤ pb.params.maxSteps)
    {goal : Pattern} (hk : goal.WellKinded) {θ θ' : Substitution} (hθ : θ.Acyclic)
    (hθk : θ.Kinded) {m : Match} (hm : m ∈ pb.store.scan (θ.apply goal) .empty) {p : Proof}
    (h : Yields (pb.byFact (θ.apply goal) θ depth m) (θ', p)) : Proven pb depth goal θ θ' p := by
  obtain ⟨θ₁, hok, hext⟩ := extension_extend hpb.inv hpb.plain hm hθ (hθ.resolved_apply goal)
  unfold Problem.byFact at h
  rw [hok] at h
  dsimp only at h
  cases h with
  | later h => cases h
  | here =>
    obtain ⟨hid, hmatch⟩ := Store.mem_scan.1 hm
    have hnarrows : ∀ σ, Solves σ θ' → Solves σ θ := fun σ hσ => ((hext.solves_iff σ).1 hσ).1
    have hself := hext.acyclic.solves_value
    have htree : θ'.apply (θ.apply goal) = pb.store.treeOf m.atomId := by
      rw [apply_eq_subst]
      exact Store.subst_of_matchAtom hpb.inv hpb.plain (hθk.apply hk) hmatch
        ((hext.solves_iff _).1 hself).2
    have hgoal := apply_of_narrows hext.acyclic hnarrows goal
    refine ⟨hext.acyclic, hext.kinded hθk, hnarrows, ?_, hgoal, ?_⟩
    · rw [← hgoal, htree]
      exact Store.isGround_treeOf hpb.inv hpb.plain hid
    · rw [htree]
      exact .fact hd (hasFact_of_mem hpb.inv hpb.plain hid)

/-- Proofs of the premises of a rule prove the goal that its conclusion unifies with. -/
theorem proven_of_rule (hpb : pb.Proper) {depth : Nat} (hd : depth ≤ pb.params.maxSteps)
    {goal : Pattern} {θ θ₁ θ' : Substitution} (hθ : θ.Acyclic) {r : Rule}
    {tag : String} (hr : r ∈ pb.rules.rulesFor (θ.apply goal) tag)
    (hu : Unification.unify (θ.apply goal) r.conclusion θ = some θ₁) {ps : List Proof}
    (h : AllProven pb (depth + 1) r.premises θ₁ θ' ps) :
    Proven pb depth goal θ θ' (byRule r (θ.apply goal) depth θ' ps) := by
  obtain ⟨r₀, hr₀, he, suffix, rfl⟩ := RuleBase.mem_rulesFor hr
  have hunifies := Unification.unifies_of_unify hθ hu
  have hnarrows : ∀ σ, Solves σ θ' → Solves σ θ := fun σ hσ =>
    ((hunifies.solves_iff σ).1 (h.narrows σ hσ)).1
  have hgoal := apply_of_narrows h.acyclic hnarrows goal
  -- The instance of the rule that the answer is about.
  obtain ⟨τ, hτ, hconclusion, hpremises⟩ :=
    (hpb.checked r₀ hr₀).ground_instance (σ := fun v => (r₀.suffixed suffix v).subst θ'.value)
      fun p hp => by
        have hq : p.subst (r₀.suffixed suffix) ∈ (r₀.renamed suffix).premises := by
          rw [r₀.premises_renamed]
          exact List.mem_map_of_mem hp
        have hground := h.ground _ hq
        rwa [apply_eq_subst, subst_subst] at hground
  have hinstance : θ'.apply (θ.apply goal) = r₀.conclusion.subst τ := by
    have heq := ((hunifies.solves_iff _).1 (h.narrows _ h.acyclic.solves_value)).2
    rw [apply_eq_subst, heq, r₀.subst_conclusion_renamed, hconclusion]
  refine ⟨h.acyclic, h.kinded, hnarrows, ?_, hgoal, ?_⟩
  · rw [← hgoal, hinstance]
    refine isGround_subst_iff.2 fun v _ => hτ v
  · unfold byRule
    rw [hinstance]
    refine .rule hd hr₀ he hτ ?_ h.proves
    rw [h.goals_eq, hpremises, ← r₀.subst_premises_renamed]
    exact List.map_congr_left fun p _ => apply_eq_subst p

/-- Every answer of the search is a derivation of the goal under the bindings of the answer. -/
theorem proven_of_yields (hpb : pb.Proper) {levels depth : Nat}
    (hlevels : levels + depth = pb.params.maxSteps + 1) {open_ : List String} {goal : Pattern}
    (hk : goal.WellKinded) {θ θ' : Substitution} (hθ : θ.Acyclic) (hθk : θ.Kinded) {p : Proof}
    (h : Yields (pb.prove levels depth open_ goal θ) (θ', p)) : Proven pb depth goal θ θ' p := by
  induction levels generalizing depth open_ goal θ θ' p with
  | zero =>
    unfold Problem.prove at h
    obtain ⟨s, h⟩ := h.of_act
    split at h
    · cases h
    · obtain ⟨_, h⟩ := h.of_act
      cases h
  | succ levels ih =>
    have hd : depth ≤ pb.params.maxSteps := by omega
    obtain ⟨ms, hfacts, hperm⟩ := facts_eq pb hpb.inv (θ.apply goal)
    unfold Problem.prove at h
    obtain ⟨s, h⟩ := h.of_act
    split at h
    · cases h
    · obtain ⟨_, h⟩ := h.of_act
      rw [hfacts] at h
      -- The answer is from a fact, or from a rule for a goal that is not open.
      rcases h.of_append with h | h
      · obtain ⟨m, hm, hy⟩ := h.of_ofEach
        exact proven_of_fact hpb hd hk hθ hθk (List.mem_of_mem_take (hperm.mem_iff.1 hm)) hy
      · split at h
        · cases h
        · obtain ⟨s, h⟩ := h.of_act
          obtain ⟨r, hr, hy⟩ := h.of_ofEach
          split at hy
          · cases hy
          · next θ₁ hu =>
            obtain ⟨⟨θ₂, ps⟩, hps, heq⟩ := hy.of_map
            cases heq
            obtain ⟨r₀, hr₀, _, suffix, hrenamed⟩ := RuleBase.mem_rulesFor hr
            have hkinded : r.WellKinded := hrenamed ▸ (hpb.kinded r₀ hr₀).renamed suffix
            have hunifies := Unification.unifies_of_unify hθ hu
            have hθ₁ := Unification.values_unify hereditary_wellKinded hθk (hθk.apply hk)
              hkinded.conclusion hu
            refine proven_of_rule hpb hd hθ hr hu ?_
            refine allProven_of_yields ?_ hkinded.premises hunifies.acyclic hθ₁ hps
            intro g η η' q hg hη hηk hy
            exact ih (by omega) hg hη hηk hy

end Credence.Backward
