import Credence.Proofs.Inference.Backward.Soundness
/-!
# What a backward search reports

The report shows the best of the proofs that were drawn. Its confidence is the least
one in the tree, which is that of the root, since rules only lower confidence. The
bindings shown are those of the variables of the goal, and they make the goal the root
of the tree.
-/

namespace Credence

open Number Pattern Substitution

/-! ## Bindings of some variables -/

namespace Substitution

theorem get?_resolve {θ : Substitution} (hθ : θ.Acyclic) (names : List String) (v : String) :
    (θ.resolve names).get? v =
      if v ∈ names ∧ θ.get? v ≠ none then some (θ.value v) else none := by
  have hvalue : ∀ w p, θ.get? w = some p → θ.apply p = θ.value w := by
    intro w p hw
    rw [hθ.solves_value w p hw, apply_eq_subst]
  unfold resolve Table.ofList
  rw [Table.get?_foldl_insert (f := θ.value)]
  · refine if_congr ?_ rfl rfl
    rw [List.mem_map]
    constructor
    · rintro ⟨e, he, rfl⟩
      obtain ⟨w, hw, hmap⟩ := List.mem_filterMap.1 he
      obtain ⟨p, hp, rfl⟩ := Option.map_eq_some_iff.1 hmap
      exact ⟨hw, by rw [hp]; exact Option.some_ne_none p⟩
    · rintro ⟨hv, hb⟩
      obtain ⟨p, hp⟩ := Option.ne_none_iff_exists'.1 hb
      exact ⟨(v, θ.apply p), List.mem_filterMap.2 ⟨v, hv, by rw [hp]; rfl⟩, rfl⟩
  · intro e he
    obtain ⟨w, hw, hmap⟩ := List.mem_filterMap.1 he
    obtain ⟨p, hp, rfl⟩ := Option.map_eq_some_iff.1 hmap
    exact hvalue w p hp

/-- The value of an unbound variable is the variable, which is not ground. -/
theorem ne_none_of_isGround_value {θ : Substitution} {v : String}
    (h : (θ.value v).isGround = true) : θ.get? v ≠ none := by
  intro hv
  have hself : θ.value v = .var v := follow_of_resolved (p := .var v) (fun w hw => by
    rw [List.mem_singleton.1 hw, hv]) _
  rw [hself] at h
  cases h

/-- The bindings of the variables of a goal that becomes ground show ground values, and turn the
goal into what all bindings turn it into. -/
theorem resolve_of_isGround {θ : Substitution} (hθ : θ.Acyclic) {goal : Pattern}
    (h : (θ.apply goal).isGround = true) :
    (∀ v ∈ goal.vars, ∃ t, (θ.resolve goal.vars).get? v = some t ∧ t.isGround = true) ∧
      apply (θ.resolve goal.vars) goal = θ.apply goal := by
  rw [apply_eq_subst] at h
  have hground : ∀ v ∈ goal.vars, (θ.value v).isGround = true := fun v hv =>
    isGround_subst_iff.1 h v (mem_vars.1 hv)
  have hget : ∀ v ∈ goal.vars, (θ.resolve goal.vars).get? v = some (θ.value v) := by
    intro v hv
    rw [get?_resolve hθ, if_pos ⟨hv, ne_none_of_isGround_value (hground v hv)⟩]
  refine ⟨fun v hv => ⟨_, hget v hv, hground v hv⟩, ?_⟩
  have hacyclic : Acyclic (θ.resolve goal.vars) := by
    refine ⟨fun _ => 0, fun v p hv w hw => ?_⟩
    rw [get?_resolve hθ] at hv
    split at hv
    · next hb =>
      cases hv
      exact absurd hw (isGround_iff.1 (hground v hb.1) w)
    · cases hv
  rw [apply_eq_subst, apply_eq_subst]
  refine subst_congr fun v hv => ?_
  rw [hacyclic.solves_value v _ (hget v (mem_vars.2 hv)),
    subst_of_isGround (hground v (mem_vars.2 hv))]

end Substitution

/-! ## Proof trees -/

namespace Proof

theorem mem_preorderList {q : Proof} {ps : List Proof} :
    q ∈ preorderList ps ↔ ∃ p ∈ ps, q ∈ p.preorder := by
  induction ps with
  | nil => simp [preorderList]
  | cons p ps ih => simp [preorderList, ih]

end Proof

namespace Backward

open Search

variable {pb : Problem}

/-- The root of a proof has the least confidence. -/
theorem Problem.Proves.confidence_le (hpb : pb.Proper) {depth : Nat} {p : Proof}
    (h : pb.Proves depth p) :
    inUnit p.confidence = true ∧
      ∀ q ∈ p.preorder, inUnit q.confidence = true ∧ p.confidence ≤ q.confidence := by
  induction h with
  | fact _ h =>
    have hu := h.inUnit hpb.inv
    refine ⟨hu, fun q hq => ?_⟩
    unfold Proof.preorder Proof.preorderList at hq
    rw [List.mem_singleton.1 hq]
    exact ⟨hu, le_refl_of_inUnit hu⟩
  | @rule r depth ps _ hr _ σ _ _ _ ih =>
    have hcs : ∀ c ∈ ps.map Proof.confidence, inUnit c = true := by
      intro c hc
      obtain ⟨p, hp, rfl⟩ := List.mem_map.1 hc
      exact (ih p hp).1
    have hleast := Proof.inUnit_least hcs
    obtain ⟨hu, hle⟩ := inUnit_mul hleast (hpb.checked r hr).inUnit_reliability
    refine ⟨hu, fun q hq => ?_⟩
    unfold Proof.preorder at hq
    rcases List.mem_cons.1 hq with rfl | hq
    · exact ⟨hu, le_refl_of_inUnit hu⟩
    · obtain ⟨p, hp, hq⟩ := Proof.mem_preorderList.1 hq
      obtain ⟨hqu, hpq⟩ := (ih p hp).2 q hq
      have hp' := Proof.least_le hcs (List.mem_map_of_mem hp)
      exact ⟨hqu, le_of_le_of_inUnit hleast hqu hle (le_of_le_of_inUnit (ih p hp).1 hqu hp' hpq)⟩

theorem Problem.Proves.weakest_eq (hpb : pb.Proper) {depth : Nat} {p : Proof}
    (h : pb.Proves depth p) : p.weakest = p.confidence := by
  obtain ⟨_, hall⟩ := h.confidence_le hpb
  unfold Proof.weakest
  cases p with
  | node g c d s cs =>
    unfold Proof.preorder at hall ⊢
    refine Proof.least_cons_of_le fun x hx => ?_
    obtain ⟨q, hq, rfl⟩ := List.mem_map.1 hx
    exact (hall q (List.mem_cons_of_mem _ hq)).2

theorem exists_of_mem_zip {ps : List Proof} {gs : List Pattern} {σ : Valuation}
    (h : ps.map Proof.goal = gs.map (subst σ)) {pc : Pattern × Float}
    (hpc : pc ∈ gs.zip (ps.map Proof.confidence)) :
    ∃ p ∈ ps, pc.1.subst σ = p.goal ∧ pc.2 = p.confidence := by
  induction ps generalizing gs with
  | nil => simp at hpc
  | cons p ps ih =>
    cases gs with
    | nil => cases h
    | cons g gs =>
      simp only [List.map_cons, List.cons.injEq] at h
      rcases List.mem_cons.1 hpc with rfl | hpc
      · exact ⟨p, List.mem_cons_self .., h.1.symm, rfl⟩
      · obtain ⟨q, hq, hqg⟩ := ih h.2 hpc
        exact ⟨q, List.mem_cons_of_mem _ hq, hqg⟩

/-- A proof derives its goal with its confidence. -/
theorem Problem.Proves.derivable {depth : Nat} {p : Proof} (h : pb.Proves depth p) :
    Derivable pb.HasFact pb.rules.rules p.goal p.confidence := by
  induction h with
  | fact _ h => exact .fact h
  | @rule r depth ps _ hr he σ hσ hgoals _ ih =>
    refine .rule hr he hσ ?_ fun pc hpc => ?_
    · have hlen := congrArg List.length hgoals
      rwa [List.length_map, List.length_map, ← List.length_map (f := Proof.confidence)] at hlen
    · obtain ⟨p, hp, hg, hc⟩ := exists_of_mem_zip hgoals hpc
      rw [hg, hc]
      exact ih p hp

/-! ## The report -/

/-- What is kept as the best proof is an answer of the search, with its least confidence. -/
def Drawn.Kept (search : Proving (Substitution × Proof)) (d : Drawn) : Prop :=
  ∀ θ p c, d.best = some (θ, p, c) → Yields search (θ, p) ∧ c = p.weakest

/-- A step keeps the new proof if it is better than the best one, and else the best one; it asks to
stop where the one kept is good enough or the cap is met. -/
theorem Drawn.best_step (params : Params) (d : Drawn) (a : Substitution × Proof) :
    ∃ b, (d.step params a).1.best = some b ∧
      (b = (a.1, a.2, a.2.weakest) ∧ (∀ b', d.best = some b' → b'.2.2 < a.2.weakest) ∨
        d.best = some b ∧ ¬ b.2.2 < a.2.weakest) ∧
      ((d.step params a).2 = true →
        params.threshold ≤ b.2.2 ∨ (d.step params a).1.capped = true) := by
  have hkeep : ∀ (b : Substitution × Proof × Float),
      let out := if b.2.2 ≥ params.threshold then (Drawn.mk (some b) (d.count + 1) false, true)
        else if d.count + 1 ≥ params.maxResults then (⟨some b, d.count + 1, true⟩, true)
        else (⟨some b, d.count + 1, false⟩, false)
      out.1.best = some b ∧ (out.2 = true → params.threshold ≤ b.2.2 ∨ out.1.capped = true) := by
    intro b out
    unfold out
    split
    · next htop => exact ⟨rfl, fun _ => .inl htop⟩
    · split
      · exact ⟨rfl, fun _ => .inr rfl⟩
      · exact ⟨rfl, nofun⟩
  -- Whichever proof is kept, the two tests for stopping are the same.
  unfold Drawn.step
  dsimp only
  cases hd : d.best with
  | none =>
    obtain ⟨hbest, hstop⟩ := hkeep (a.1, a.2, a.2.weakest)
    exact ⟨_, hbest, .inl ⟨rfl, nofun⟩, hstop⟩
  | some b =>
    dsimp only
    split
    · next hgt =>
      obtain ⟨hbest, hstop⟩ := hkeep (a.1, a.2, a.2.weakest)
      refine ⟨_, hbest, .inl ⟨rfl, fun b' hb' => ?_⟩, hstop⟩
      cases hb'
      exact hgt
    · next hgt =>
      obtain ⟨hbest, hstop⟩ := hkeep b
      exact ⟨b, hbest, .inr ⟨rfl, hgt⟩, hstop⟩

theorem Drawn.Kept.step {search : Proving (Substitution × Proof)} {d : Drawn}
    (h : d.Kept search) (params : Params) {a : Substitution × Proof} (ha : Yields search a) :
    (d.step params a).1.Kept search := by
  intro θ p c hb
  obtain ⟨b, hbest, ⟨rfl, _⟩ | ⟨hold, _⟩, _⟩ := d.best_step params a
  · rw [hbest] at hb
    cases hb
    exact ⟨ha, rfl⟩
  · rw [hbest] at hb
    cases hb
    exact h θ p c hold

theorem Drawn.kept_start (search : Proving (Substitution × Proof)) :
    Drawn.Kept search ⟨none, 0, false⟩ := by
  intro θ p c hb
  cases hb

/-- Without a proof every goal of the report is unproven. -/
theorem unproven_of_explain {goal : Pattern} {s s' : State} {gs : List Subgoal} {ps : List Proof}
    (h : pb.explain goal s = (.ok (gs, ps), s')) : ∀ g ∈ gs, g.proven = false := by
  unfold Problem.explain at h
  dsimp only at h
  split at h
  · cases h
    simp
  · split at h
    · cases h
      simp
    · split at h <;> cases h <;> simp

/-- A report with a proof shows an answer of the search. -/
theorem yields_of_report {goal : Pattern} {s s' : State} {r : Result}
    (h : pb.report goal s = (.ok r, s')) (hr : ∃ g ∈ r.subgoals, g.proven = true) :
    ∃ θ p, Yields (pb.prove (pb.params.maxSteps + 1) 0 [] goal .empty) (θ, p) ∧
      r.steps = p.postorder ∧ r.confidence = p.weakest ∧ r.bindings = θ.resolve goal.vars := by
  unfold Problem.report at h
  dsimp only at h
  split at h
  · cases h
  · next drawn s₁ hfold =>
    have hkept : drawn.Kept (pb.prove (pb.params.maxSteps + 1) 0 [] goal .empty) :=
      fold_invariant (fun d a hd ha => hd.step pb.params ha) (Drawn.kept_start _) hfold
    split at h
    · next θ p c hbest =>
      cases h
      obtain ⟨hy, hc⟩ := hkept θ p c hbest
      exact ⟨θ, p, hy, rfl, hc, rfl⟩
    · split at h
      · cases h
      · next gs ps s₂ hexplain =>
        cases h
        obtain ⟨g, hg, hproven⟩ := hr
        rw [unproven_of_explain hexplain g hg] at hproven
        cases hproven

/-- The best proof drawn is reported. -/
theorem report_of_fold {pb : Problem} {goal : Pattern} {s s₁ : State} {θ : Substitution} {p : Proof}
    {c : Float} {n : Nat} {capped : Bool}
    (h : (pb.prove (pb.params.maxSteps + 1) 0 [] goal .empty).fold (Drawn.step pb.params)
      ⟨none, 0, false⟩ s = (.ok ⟨some (θ, p, c), n, capped⟩, s₁)) :
    pb.report goal s = (.ok ⟨⟨s₁.boundReached || capped, s₁.incomplete, s₁.expansions⟩, goal,
        subgoalsOf p, p.postorder, c ≥ pb.params.threshold, c, θ.resolve goal.vars⟩,
      { s₁ with boundReached := s₁.boundReached || capped }) := by
  unfold Problem.report
  dsimp only
  rw [h]

theorem run_chain (store : Store) (rules : RuleBase) (goal : Pattern) (params : Params)
    (clock : Clock) (n : Nat) :
    let pb := Problem.mk store rules params ⟨params.timeout, clock⟩
    StateT.run (ExceptT.run (chain store rules goal params clock)) n =
      ((pb.report goal .start).1, n + (pb.report goal .start).2.lookups) := by
  intro pb
  unfold chain
  show _ = ((pb.report goal .start).1, n + (pb.report goal .start).2.lookups)
  generalize pb.report goal .start = out
  obtain ⟨out | out, s⟩ := out <;> rfl

section

variable {store : Store} {rules : RuleBase} {goal : Pattern} {params : Params} {clock : Clock}
  {n : Nat} {r : Result}

/-- A run answers with the report. -/
theorem run_of_report {s : State}
    (h : (Problem.mk store rules params ⟨params.timeout, clock⟩).report goal .start = (.ok r, s)) :
    StateT.run (ExceptT.run (chain store rules goal params clock)) n = (.ok r, n + s.lookups) := by
  refine (run_chain ..).trans ?_
  rw [h]

theorem report_of_run {n' : Nat}
    (h : StateT.run (ExceptT.run (chain store rules goal params clock)) n = (.ok r, n')) :
    ∃ s, (Problem.mk store rules params ⟨params.timeout, clock⟩).report goal .start = (.ok r, s) := by
  rw [run_chain] at h
  obtain ⟨hanswer, -⟩ := Prod.ext_iff.1 h
  exact ⟨_, Prod.ext hanswer rfl⟩

end

/-! ## A small problem -/

namespace Cats

/-- A concept. -/
def concept (name : String) : Pattern := .node (.node .concept) name

/-- A statement that one thing is another. -/
def isA (p q : Pattern) : Pattern := .link (.link .inheritance) [p, q]

/-- A store that knows of one animal. -/
def store : Store := ((Store.assert (isA (concept "cat") (concept "animal")) none).run.run .empty).2

/-- A rule that makes similar what is related. -/
def rules : RuleBase := ⟨[⟨.text "similar", [isA (.var "$X") (.var "$Y")],
  .link (.link .similarity) [.var "$Y", .var "$X"], .real 0.9, .null, .int 0, true⟩]⟩

/-- The question which animals there are. -/
def goal : Pattern := isA (.var "$A") (concept "animal")

/-- The problem to answer it with the usual parameters. -/
def problem : Problem := ⟨store, rules, .default, ⟨none, fun _ => 0⟩⟩

theorem plain_store : store.Plain := by
  unfold Store.Plain
  decide

theorem facts_goal : problem.facts goal = .ok [⟨⟨[("$A", 1)]⟩, 3⟩] :=
  congrArg Except.ok (List.mergeSort_singleton _)

theorem report_goal : ∃ r, problem.report goal .start =
    (.ok r, ⟨0, false, 1, 0, 1, false, false⟩) ∧ r.goalProven = true ∧ r.confidence = 0.9 ∧
      apply r.bindings goal = isA (concept "cat") (concept "animal") ∧
      ∃ g ∈ r.subgoals, g.proven = true := by
  have hlive : ¬ (State.poll problem.deadline .start).expired = true := Bool.false_ne_true
  have hsearch : (problem.prove 11 0 [] goal .empty).fold (Drawn.step problem.params)
      ⟨none, 0, false⟩ .start = (.ok ⟨some (⟨[("$A", concept "cat")]⟩,
        .node (isA (concept "cat") (concept "animal")) 0.9 0 .fact [], 0.9), 1, false⟩,
        ⟨0, false, 1, 0, 1, false, false⟩) := by
    unfold Problem.prove
    simp only [fold, apply_empty, facts_goal, if_neg hlive]
    rfl
  exact ⟨_, report_of_fold hsearch, rfl, rfl, rfl, _, List.mem_cons_self .., rfl⟩

end Cats

/-! ## Soundness -/

/-- Backward chaining is sound: every answer of its search is a derivation that makes the goal
ground, and whatever proof it reports derives the goal under the bindings that it reports, with
the confidence that it reports. -/
theorem chain_sound {store : Store} (hs : store.Reachable) (hp : store.Plain) {rules : RuleBase}
    (hc : ∀ r ∈ rules.rules, r.check = .ok r) (hk : ∀ r ∈ rules.rules, r.WellKinded)
    {goal : Pattern} (hg : goal.WellKinded) (params : Params) (clock : Clock) :
    let pb := Problem.mk store rules params ⟨params.timeout, clock⟩
    (∀ θ p, Yields (pb.prove (params.maxSteps + 1) 0 [] goal .empty) (θ, p) →
      (θ.apply goal).isGround = true ∧ p.goal = θ.apply goal ∧ pb.Proves 0 p) ∧
    ∀ n r n', StateT.run (ExceptT.run (chain store rules goal params clock)) n = (.ok r, n') →
      (∃ g ∈ r.subgoals, g.proven = true) →
      (∀ v ∈ goal.vars, ∃ t, r.bindings.get? v = some t ∧ t.isGround = true) ∧
      (∃ p, r.steps = p.postorder ∧ p.goal = apply r.bindings goal ∧ pb.Proves 0 p ∧
        r.confidence = p.weakest ∧ r.confidence = p.confidence) ∧
      Derivable pb.HasFact rules.rules (apply r.bindings goal) r.confidence := by
  intro pb
  have hpb : pb.Proper := ⟨hs.inv, hp, fun r hr => (Rule.checked_of_check (hc r hr)).1, hk⟩
  have hproven : ∀ θ p, Yields (pb.prove (params.maxSteps + 1) 0 [] goal .empty) (θ, p) →
      Proven pb 0 goal .empty θ p := fun θ p hy =>
    proven_of_yields hpb (rfl : params.maxSteps + 1 + 0 = _) hg acyclic_empty (values_empty _) hy
  refine ⟨fun θ p hy => ?_, fun n r n' hrun hr => ?_⟩
  · have h := hproven θ p hy
    exact ⟨h.ground, h.goal_eq, h.proves⟩
  · obtain ⟨s, hreport⟩ := report_of_run hrun
    obtain ⟨θ, p, hy, hsteps, hconf, hbind⟩ := yields_of_report hreport hr
    have h := hproven θ p hy
    obtain ⟨hvars, happly⟩ := resolve_of_isGround h.acyclic h.ground
    rw [hbind]
    have hroot : r.confidence = p.confidence := hconf.trans (h.proves.weakest_eq hpb)
    refine ⟨hvars, ⟨p, hsteps, h.goal_eq.trans happly.symm, h.proves, hconf, hroot⟩, ?_⟩
    rw [happly, hroot, ← h.goal_eq]
    exact h.proves.derivable

open Cats in
/-- A stored fact proves a goal, beside a rule that does not apply. -/
theorem chain_sound_cats :
    ∃ r n, StateT.run (ExceptT.run (chain store rules goal .default fun _ => 0)) 0 = (.ok r, n) ∧
      Derivable problem.HasFact rules.rules (isA (concept "cat") (concept "animal")) 0.9 := by
  obtain ⟨r, hreport, _, hconf, happly, hproven⟩ := report_goal
  have hrun := run_of_report (n := 0) hreport
  refine ⟨r, _, hrun, ?_⟩
  have hs : store.Reachable := Store.Reachable.single _
  have hk : goal.WellKinded := ⟨rfl, trivial, rfl, trivial⟩
  have hsound := (chain_sound hs plain_store (List.forall_mem_singleton.2 rfl)
    (List.forall_mem_singleton.2 ⟨?_, ?_⟩) hk .default fun _ => 0).2 0 r _ hrun hproven
  · rw [← hconf, ← happly]
    exact hsound.2.2
  · intro p hp
    rw [List.mem_singleton.1 hp]
    exact ⟨rfl, trivial, trivial, trivial⟩
  · exact ⟨rfl, trivial, trivial, trivial⟩

end Backward

end Credence
