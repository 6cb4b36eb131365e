import Credence.Proofs.Inference.Backward.Completeness
/-!
# What a negative answer means

A search that ends without a good enough proof, without a note of a bound and within
its time has seen a proof at least as good as any derivation, so there is no good
enough derivation. The notes have to cover what the search leaves out without a word.
-/

namespace Credence

open Number Pattern Substitution

namespace Backward

open Search

variable {pb : Problem}

/-! ## Running out of time is reported -/

/-- Whether a later state remembers that time ran out. -/
def State.Remembers (s t : State) : Prop := s.incomplete = true → t.incomplete = true

theorem lasting_remembers : Lasting State.Remembers fun s => s.incomplete = true where
  refl _ := id
  trans h h' := fun hs => h' (h hs)
  keeps h hs := h hs

theorem moves_prove (pb : Problem) (levels depth : Nat) (open_ : List String) (goal : Pattern)
    (θ : Substitution) : Moves State.Remembers (pb.prove levels depth open_ goal θ) := by
  refine (erases_prove pb levels depth open_ goal θ).moves noted_refl ?_
    (moves_proveNoted pb levels depth open_ goal θ)
  rintro s t u hst ⟨b, _, rfl⟩ hs
  exact hst.incomplete hs

theorem remembers_provePremises (pb : Problem) (key : String) (gs : List Pattern)
    (θ : Substitution) (s : State) : s.Remembers (pb.provePremises key gs θ s).2 := by
  induction gs generalizing θ s with
  | nil => exact id
  | cons g gs ih =>
    have hnext : s.Remembers ((pb.prove pb.params.maxSteps 1 [key] g θ).next s).2 :=
      (moves_prove pb _ _ _ g θ).fold lasting_remembers none s
    unfold Problem.provePremises
    split
    · next hrun => rwa [hrun] at hnext
    · next hrun => rwa [hrun] at hnext
    · next θ₁ p s₁ hrun =>
      rw [hrun] at hnext
      have hrest := ih θ₁ s₁
      split
      · next hgs =>
        rw [hgs] at hrest
        exact fun hs => hrest (hnext hs)
      · next hgs =>
        rw [hgs] at hrest
        exact fun hs => hrest (hnext hs)

theorem remembers_explain (pb : Problem) (goal : Pattern) (s : State) :
    s.Remembers (pb.explain goal s).2 := by
  unfold Problem.explain
  dsimp only
  split
  · exact id
  · next r _ _ =>
    cases Unification.unify goal r.conclusion .empty with
    | none => exact id
    | some θ =>
      have hps := remembers_provePremises pb goal.variantKey r.premises θ s
      dsimp only
      split <;> next hrun => rwa [hrun] at hps

/-! ## The best proof -/

/-- Whether the best proof drawn is good enough. -/
def Drawn.Good (params : Params) (d : Drawn) : Prop := ∃ b, d.best = some b ∧ params.threshold ≤ b.2.2

/-- A negative report shows no good enough proof, no cap, and a search that was in time. -/
theorem negative_report {goal : Pattern} {s s' : State} {r : Result}
    (h : pb.report goal s = (.ok r, s')) (hneg : r.goalProven = false)
    (hbound : r.outcome.boundReached = false) (htime : r.outcome.incomplete = false) :
    ∃ d s₁, (pb.prove (pb.params.maxSteps + 1) 0 [] goal .empty).fold (Drawn.step pb.params)
        ⟨none, 0, false⟩ s = (.ok d, s₁) ∧
      ¬ d.Good pb.params ∧ (d.best ≠ none → d.capped = false) ∧ s₁.incomplete = false := by
  unfold Problem.report at h
  dsimp only at h
  split at h
  · cases h
  · next d s₁ hfold =>
    refine ⟨d, s₁, hfold, ?_⟩
    split at h
    · next θ p c hbest =>
      cases h
      refine ⟨?_, fun _ => (Bool.or_eq_false_iff.1 hbound).2, htime⟩
      rintro ⟨b, hb, hgood⟩
      rw [hbest] at hb
      cases hb
      exact of_decide_eq_false hneg hgood
    · next hbest =>
      have hrest := remembers_explain pb goal
        { s₁ with boundReached := s₁.boundReached || d.capped }
      refine ⟨?_, fun hb => absurd hbest hb, ?_⟩
      · rintro ⟨b, hb, _⟩
        rw [hbest] at hb
        cases hb
      · split at h
        · cases h
        · next hexplain =>
          cases h
          rw [hexplain] at hrest
          exact Bool.eq_false_iff.2 fun hs => Bool.eq_false_iff.1 htime (hrest hs)

/-- A step keeps a proof that is good enough, or takes a better one. -/
theorem Drawn.Good.step {params : Params} {d : Drawn} (h : d.Good params)
    (hd : ∀ b, d.best = some b → inUnit b.2.2 = true) {a : Substitution × Proof}
    (ha : inUnit a.2.weakest = true) : (d.step params a).1.Good params := by
  obtain ⟨b, hb, hgood⟩ := h
  obtain ⟨b', hbest, ⟨rfl, hbetter⟩ | ⟨hold, _⟩, _⟩ := d.best_step params a
  · have hle := le_of_lt_of_inUnit (hd b hb) ha (hbetter b hb)
    exact ⟨_, hbest, le_of_le_of_inUnit (hd b hb) ha hgood hle⟩
  · rw [hb] at hold
    cases hold
    exact ⟨b, hbest, hgood⟩

/-- After a proof that is good enough the best one is. -/
theorem Drawn.good_step {params : Params} {d : Drawn}
    (hd : ∀ b, d.best = some b → inUnit b.2.2 = true) {a : Substitution × Proof}
    (ha : inUnit a.2.weakest = true) (hgood : params.threshold ≤ a.2.weakest) :
    (d.step params a).1.Good params := by
  obtain ⟨b, hbest, ⟨rfl, _⟩ | ⟨hold, hworse⟩, _⟩ := d.best_step params a
  · exact ⟨_, hbest, hgood⟩
  · have hle := le_of_not_lt_of_inUnit ha (hd b hold) hworse
    exact ⟨b, hbest, le_of_le_of_inUnit ha (hd b hold) hgood hle⟩

/-- The noted search draws a good enough proof if there is a good enough derivation, or it meets
the cap on proofs, or it notes that it was cut short. -/
theorem good_of_loopFree (hpb : pb.Proper)
    (hn : ∀ r ∈ pb.rules.rules, ∀ v ∈ r.names, Unmarked v) {goal : Pattern} (hg : goal.WellKinded)
    (hv : ∀ v ∈ goal.occurrences, Unmarked v) {σ : Valuation} {c : Float}
    (hder : LoopFree pb.HasFact pb.rules.rules [] (goal.subst σ) c)
    (hc : pb.params.threshold ≤ c) {d : Drawn} {s : State}
    (hrun : (pb.proveNoted (pb.params.maxSteps + 1) 0 [] goal .empty).fold (Drawn.step pb.params)
      ⟨none, 0, false⟩ .start = (.ok d, s)) :
    (d.Good pb.params ∨ d.best ≠ none ∧ d.capped = true) ∨ s.Cut := by
  have hguided : Guided 0 σ .empty [] [] :=
    ⟨acyclic_empty, over_empty _, solves_empty σ, nofun⟩
  have hfinds := finds_proveNoted hpb hn (pb.params.maxSteps + 1) 0 [] [] 0 σ .empty goal c
    .start hguided (fun v hm => (hv v hm).known 0) (Nat.le_refl _) hder
  have hanswer : ∀ a, Yields (pb.proveNoted (pb.params.maxSteps + 1) 0 [] goal .empty) a →
      a.2.weakest = a.2.confidence ∧ inUnit a.2.weakest = true := by
    rintro ⟨θ, p⟩ ha
    have hproven := proven_of_yields hpb (rfl : pb.params.maxSteps + 1 + 0 = _) hg acyclic_empty
      (values_empty _) ((erases_prove pb _ 0 [] goal .empty).yields noted_refl ha)
    have hroot := hproven.proves.weakest_eq hpb
    exact ⟨hroot, hroot ▸ (hproven.proves.confidence_le hpb).1⟩
  have hkept : ∀ d : Drawn, d.Kept (pb.proveNoted (pb.params.maxSteps + 1) 0 [] goal .empty) →
      ∀ b, d.best = some b → inUnit b.2.2 = true := by
    rintro d hd ⟨θ, p, x⟩ hb
    obtain ⟨hy, rfl⟩ := hd θ p x hb
    exact (hanswer _ hy).2
  -- The best proof drawn is an answer of the search; once it is good enough it stays so.
  refine hfinds.fold lasting_before
    (I := fun d => d.Kept (pb.proveNoted (pb.params.maxSteps + 1) 0 [] goal .empty))
    (P := fun d => d.Kept (pb.proveNoted (pb.params.maxSteps + 1) 0 [] goal .empty) ∧
      d.Good pb.params)
    (S := fun d => d.Good pb.params ∨ d.best ≠ none ∧ d.capped = true)
    (fun d a hd ha => hd.step pb.params ha) (fun d a hstop => ?_) (fun d a hd ha => ?_)
    (fun d hd => .inl hd.2) (fun d a t hd ha hq => ?_) (Drawn.kept_start _) hrun
  · obtain ⟨b, hbest, _, hwhy⟩ := d.best_step pb.params a
    refine (hwhy hstop).imp (fun hgood => ⟨b, hbest, hgood⟩) fun hcap => ⟨?_, hcap⟩
    rw [hbest]
    exact Option.some_ne_none b
  · exact ⟨hd.1.step pb.params ha, hd.2.step (hkept d hd.1) (hanswer a ha).2⟩
  · refine ⟨hd.step pb.params ha, Drawn.good_step (hkept d hd) (hanswer a ha).2 ?_⟩
    rw [(hanswer a ha).1, hq.2]
    exact hc

/-! ## Problems with one rule for a node -/

section

variable {r : Rule} {k : Kind} {name : String} (hc : r.conclusion = .node k name)
  (ho : RuleBase.inOrder ⟨[r]⟩ = [r])

include hc in
theorem conclusion_eq_node (suffix : String) : (r.renamed suffix).conclusion = .node k name := by
  rw [Rule.conclusion_renamed, hc]
  rfl

include hc in
theorem unify_conclusion (suffix : String) :
    Unification.unify (.node k name) (r.renamed suffix).conclusion .empty = some .empty := by
  rw [conclusion_eq_node hc]
  unfold Unification.unify Unification.solve
  rw [if_pos rfl]
  unfold Unification.solve
  rfl

include hc ho in
theorem rulesFor_node (tag : String) : RuleBase.rulesFor ⟨[r]⟩ (.node k name) tag =
    [r.renamed ("_" ++ tag ++ toString 0)] := by
  unfold RuleBase.rulesFor RuleBase.rulesFrom RuleBase.rulesFrom
  rw [ho]
  dsimp only
  rw [unify_conclusion hc]

include hc ho in
theorem rulesFor_link (l : Kind) (ps : List Pattern) (tag : String) :
    RuleBase.rulesFor ⟨[r]⟩ (.link l ps) tag = [] := by
  have hunify : Unification.unify (.link l ps) (.node k name) .empty = none := by
    unfold Unification.unify Unification.solve
    rw [if_neg nofun]
    rfl
  unfold RuleBase.rulesFor RuleBase.rulesFrom RuleBase.rulesFrom
  rw [ho]
  dsimp only
  rw [conclusion_eq_node hc, hunify]

end

/-! ## Two small problems -/

namespace Cats

theorem distinct_store : store.Distinct := by
  have hall : ∀ i ∈ store.ids, ∀ j ∈ store.ids,
      (store.toPattern i).toOption = (store.toPattern j).toOption → i = j := by decide +kernel
  exact fun i hi j hj hij => hall i hi j hj (congrArg Except.toOption hij)

/-- A rule of little weight. -/
def hunch : Rule := ⟨.text "hunch", [isA (concept "cat") (.var "$X")], concept "hunch", .real 0.5,
  .null, .int 0, true⟩

/-- The problem to follow the hunch. -/
def hunchProblem : Problem := ⟨store, ⟨[hunch]⟩, .default, ⟨none, fun _ => 0⟩⟩

theorem premises_hunch : (hunch.renamed ("_" ++ (toString 1 ++ "_") ++ toString 0)).premises =
    [isA (concept "cat") (.var "$X_1_0")] := by decide +kernel

theorem facts_hunch : hunchProblem.facts (concept "hunch") = .ok [] :=
  congrArg Except.ok List.mergeSort_nil

theorem facts_premise :
    hunchProblem.facts (isA (concept "cat") (.var "$X_1_0")) = .ok [⟨⟨[("$X_1_0", 2)]⟩, 3⟩] :=
  congrArg Except.ok (List.mergeSort_singleton _)

theorem extend_premise : extend hunchProblem.store .empty ⟨[("$X_1_0", 2)]⟩ =
    .ok ⟨[("$X_1_0", concept "animal")]⟩ := rfl

theorem misses_hunch {goal : Pattern} (h : hunchProblem.overflows goal = false) :
    hunchProblem.misses goal = false :=
  Bool.or_eq_false_iff.2
    ⟨h, overlooks_eq_false (Store.Reachable.single _).inv plain_store distinct_store goal⟩

theorem inOrder_hunch : hunchProblem.rules.inOrder = [hunch] := RuleBase.inOrder_singleton rfl

theorem lists_premise (open_ : List String)
    (h : open_.contains (isA (concept "cat") (.var "$X_1_0")).variantKey = false) :
    Lists State.Calm
      (hunchProblem.proveNoted 10 1 open_ (isA (concept "cat") (.var "$X_1_0")) .empty)
      [(⟨[("$X_1_0", concept "animal")]⟩, .node (isA (concept "cat") (concept "animal"))
        (hunchProblem.confidence 3) 1 .fact [])] :=
  lists_proveNoted rfl facts_premise (lists_byFact ⟨⟨[("$X_1_0", 2)]⟩, 3⟩ extend_premise)
    (rulesFor_link rfl inOrder_hunch _ _) (misses_hunch rfl) h

/-- The search draws one proof, which is too weak. -/
theorem noted_hunch : ∃ b s, (hunchProblem.proveNoted 11 0 [] (concept "hunch") .empty).fold
    (Drawn.step hunchProblem.params) ⟨none, 0, false⟩ .start = (.ok ⟨some b, 1, false⟩, s) ∧
      s.Calm ∧ b.2.2 = 0.45 := by
  have hpremises := lists_proveAll_cons (lists_premise [(concept "hunch").variantKey]
    (by decide +kernel)) lists_proveAll_nil
  rw [← premises_hunch] at hpremises
  have hrule := lists_ofEach_singleton (lists_tried 0 (unify_conclusion rfl _) hpremises)
  rw [← rulesFor_node rfl inOrder_hunch] at hrule
  obtain ⟨s, hs, hrun⟩ := fold_proveNoted_start rfl facts_hunch (Drawn.step hunchProblem.params)
    ⟨none, 0, false⟩ (misses_hunch rfl) hrule
  exact ⟨_, s, hrun, hs, rfl⟩

theorem run_hunch :
    ∃ r n, StateT.run (ExceptT.run (chain store ⟨[hunch]⟩ (concept "hunch") .default fun _ => 0)) 0 =
        (.ok r, n) ∧ r.goalProven = false ∧ r.confidence = 0.45 ∧
      r.outcome.boundReached = false ∧ r.outcome.incomplete = false := by
  obtain ⟨⟨θ, p, c⟩, s, hnoted, hs, rfl⟩ := noted_hunch
  have hreport := report_of_fold (fold_prove hnoted hs.boundReached)
  exact ⟨_, _, run_of_report hreport, rfl, rfl, by simp [hs.boundReached], hs.incomplete⟩

end Cats

namespace Nested

open Cats (concept)

/-- A list of things. -/
def list (ps : List Pattern) : Pattern := .link (.link .list) ps

/-- A store that knows of two short lists and one that holds both. -/
def store : Store :=
  ((Store.assert (list [list [concept "a"], list [concept "b"]]) none).run.run .empty).2

/-- A rule that asks for what stands in a short list and comes second in a long one. -/
def second : Rule := ⟨.text "second", [list [.var "$X"], list [list [concept "a"], list [.var "$X"]]],
  concept "second", .real 1.0, .null, .int 0, true⟩

/-- Usual parameters, but for one result. -/
def params : Params := { Params.default with maxResults := 1 }

/-- The problem to find something that comes second, with one fact tried for each goal. -/
def problem : Problem := ⟨store, ⟨[second]⟩, params, ⟨none, fun _ => 0⟩⟩

theorem premises_second : (second.renamed ("_" ++ (toString 1 ++ "_") ++ toString 0)).premises =
    [list [.var "$X_1_0"], list [list [concept "a"], list [.var "$X_1_0"]]] := by decide +kernel

theorem premises_why : (second.renamed ("_" ++ "why_" ++ toString 0)).premises =
    [list [.var "$X_why_0"], list [list [concept "a"], list [.var "$X_why_0"]]] := by decide +kernel

theorem facts_second : problem.facts (concept "second") = .ok [] :=
  congrArg Except.ok List.mergeSort_nil

/-- Of the two short lists the first is tried. -/
theorem facts_short (v : String) : problem.facts (list [.var v]) = .ok [⟨⟨[(v, 1)]⟩, 2⟩] :=
  congrArg Except.ok (List.mergeSort_singleton _)

theorem facts_long : problem.facts (list [list [concept "a"], list [concept "a"]]) = .ok [] :=
  congrArg Except.ok List.mergeSort_nil

theorem extend_short (v : String) :
    extend problem.store .empty ⟨[(v, 1)]⟩ = .ok ⟨[(v, concept "a")]⟩ := rfl

theorem apply_long (v : String) :
    Substitution.apply ⟨[(v, concept "a")]⟩ (list [list [concept "a"], list [.var v]]) =
      list [list [concept "a"], list [concept "a"]] := by
  simp [Substitution.apply, Table.size, follow, list, concept, subst, substList, Table.get?,
    Table.find]

theorem rulesFor_second (tag : String) : problem.rules.rulesFor (concept "second") tag =
    [second.renamed ("_" ++ tag ++ toString 0)] :=
  rulesFor_node rfl (RuleBase.inOrder_singleton rfl) tag

theorem rulesFor_list (ps : List Pattern) (tag : String) :
    problem.rules.rulesFor (list ps) tag = [] :=
  rulesFor_link rfl (RuleBase.inOrder_singleton rfl) _ ps tag

theorem unify_second (suffix : String) : Unification.unify (concept "second")
    (second.renamed suffix).conclusion .empty = some .empty := unify_conclusion rfl suffix

/-- What stands in the first short list does not stand in the long one as well. -/
theorem lists_short (levels depth : Nat) (open_ : List String) (v : String) :
    Lists State.Calm (problem.prove (levels + 1) depth open_ (list [.var v]) .empty)
      [(⟨[(v, concept "a")]⟩, .node (Substitution.apply ⟨[(v, concept "a")]⟩ (list [.var v]))
        (problem.confidence 2) depth .fact [])] :=
  lists_prove rfl (facts_short v) (lists_byFact ⟨⟨[(v, 1)]⟩, 2⟩ (extend_short v)) (rulesFor_list _) open_

theorem lists_long (levels depth : Nat) (open_ : List String) (v : String) :
    Lists State.Calm (problem.prove (levels + 1) depth open_
      (list [list [concept "a"], list [.var v]]) ⟨[(v, concept "a")]⟩) [] :=
  lists_prove rfl ((apply_long v).symm ▸ facts_long) .done
    (fun tag => (apply_long v).symm ▸ rulesFor_list _ tag) open_

theorem lists_premises (levels : Nat) (open_ : List String) (v : String) :
    Lists State.Calm (proveAll (problem.prove (levels + 1) 1 open_)
      [list [.var v], list [list [concept "a"], list [.var v]]] .empty) [] :=
  lists_proveAll_cons (lists_short levels 1 open_ v) (lists_proveAll_of_none (lists_long ..) [])

/-- What stands in the first short list does not come second, and no other is tried. -/
theorem next_second : ∃ s, (problem.prove 11 0 [] (concept "second") .empty).next .start =
    (.ok none, s) ∧ s.Calm := by
  have hpremises := lists_premises 9 [(concept "second").variantKey] "$X_1_0"
  rw [← premises_second] at hpremises
  have hrule := lists_ofEach_singleton (lists_tried 0 (unify_second _) hpremises)
  rw [← rulesFor_second] at hrule
  obtain ⟨s, hs, hrun⟩ := next_prove_start rfl facts_second hrule
  exact ⟨s, hrun, hs⟩

theorem report_second : ∃ r s, problem.report (concept "second") .start = (.ok r, s) ∧
    r.goalProven = false ∧ r.outcome.boundReached = false ∧ r.outcome.incomplete = false := by
  obtain ⟨s, hnext, hs⟩ := next_second
  refine report_of_passes hnext hs (rulesFor_second "why_") (unify_second _) ?_
  -- The explanation proves the first premise and not the second one.
  rw [premises_why]
  refine passes_cons (lists_short 9 1 _ _) fun a ha => ?_
  cases ha
  exact passes_cons (lists_long 9 1 _ _) nofun

end Nested

/-! ## Negative answers -/

theorem refutes_of_report (hpb : pb.Proper)
    (hn : ∀ r ∈ pb.rules.rules, ∀ v ∈ r.names, Unmarked v) {goal : Pattern} (hg : goal.WellKinded)
    (hv : ∀ v ∈ goal.occurrences, Unmarked v) {r : Result} {s : State}
    (h : pb.report goal .start = (.ok r, s)) (hneg : r.goalProven = false)
    (hbound : r.outcome.boundReached = false) (htime : r.outcome.incomplete = false)
    (hall : pb.leavesOut goal = false) {σ : Valuation} {c : Float}
    (hder : Derivable pb.HasFact pb.rules.rules (goal.subst σ) c) : ¬ pb.params.threshold ≤ c := by
  intro hgood
  obtain ⟨d, s₁, hfold, hbad, hcap, hin⟩ := negative_report h hneg hbound htime
  have hfact : ∀ t c, pb.HasFact t c → inUnit c = true := fun t c hf => hf.inUnit hpb.inv
  obtain ⟨e, hce, hloop⟩ := hder.exists_loopFree hfact hpb.checked
  have hge := le_of_le_of_inUnit (hder.inUnit hfact hpb.checked)
    (hloop.derivable.inUnit hfact hpb.checked) hgood hce
  obtain ⟨hsame, hnoted⟩ := (erases_prove pb (pb.params.maxSteps + 1) 0 [] goal .empty).fold
    (Drawn.step pb.params) ⟨none, 0, false⟩ (noted_refl .start)
  unfold Problem.leavesOut at hall
  rw [hfold] at hsame hnoted
  generalize hrun : (pb.proveNoted (pb.params.maxSteps + 1) 0 [] goal .empty).fold
    (Drawn.step pb.params) ⟨none, 0, false⟩ .start = run at hsame hnoted hall
  obtain ⟨out, s₂⟩ := run
  cases hsame
  rcases good_of_loopFree hpb hn hg hv hloop hge hrun with
    (hbest | ⟨hb, hcapped⟩) | hcut | hcut
  · exact hbad hbest
  · rw [hcap hb] at hcapped
    cases hcapped
  · exact Bool.eq_false_iff.1 hall hcut
  · obtain ⟨b, _, rfl⟩ : Noted s₂ s₁ := hnoted
    exact Bool.eq_false_iff.1 hin hcut

/-- A negative answer is right: if backward chaining reports that a goal is not proven, no bound met
and its time not used up, then no instance of the goal has a good enough derivation. The search
must have left out nothing without a note, and the variables may not have names like those made for
rules. -/
theorem chain_refutes {store : Store} (hs : store.Reachable) (hp : store.Plain)
    {rules : RuleBase} (hc : ∀ r ∈ rules.rules, r.check = .ok r)
    (hk : ∀ r ∈ rules.rules, r.WellKinded) (hn : ∀ r ∈ rules.rules, ∀ v ∈ r.names, Unmarked v)
    {goal : Pattern} (hg : goal.WellKinded) (hv : ∀ v ∈ goal.vars, Unmarked v) (params : Params)
    (clock : Clock) :
    let pb := Problem.mk store rules params ⟨params.timeout, clock⟩
    ∀ n r n', StateT.run (ExceptT.run (chain store rules goal params clock)) n = (.ok r, n') →
      r.goalProven = false → r.outcome.boundReached = false → r.outcome.incomplete = false →
      pb.leavesOut goal = false →
      ∀ σ c, Derivable pb.HasFact rules.rules (goal.subst σ) c → ¬ params.threshold ≤ c := by
  intro pb n r n' hrun hneg hbound htime hall σ c hder
  obtain ⟨s, hreport⟩ := report_of_run hrun
  have hpb : pb.Proper := ⟨hs.inv, hp, fun r hr => (Rule.checked_of_check (hc r hr)).1, hk⟩
  exact refutes_of_report hpb hn hg (fun v hm => hv v (mem_vars.2 hm)) hreport hneg hbound htime
    hall hder

open Cats in
/-- The only derivation of the hunch is too weak, and the search says that it is not proven. -/
theorem chain_refutes_hunch :
    ∃ r n, StateT.run (ExceptT.run (chain store ⟨[hunch]⟩ (concept "hunch") .default fun _ => 0)) 0 =
        (.ok r, n) ∧ r.goalProven = false ∧ r.confidence = 0.45 ∧
      ∀ σ c, Derivable hunchProblem.HasFact [hunch] ((concept "hunch").subst σ) c → ¬ 0.7 ≤ c := by
  obtain ⟨r, n, hrun, hneg, hconf, hbound, htime⟩ := run_hunch
  refine ⟨r, n, hrun, hneg, hconf, ?_⟩
  have hs : store.Reachable := Store.Reachable.single _
  have hk : hunch.WellKinded :=
    ⟨List.forall_mem_singleton.2 ⟨rfl, rfl, trivial, trivial⟩, rfl⟩
  have hn : ∀ v ∈ hunch.names, Unmarked v :=
    List.forall_mem_singleton.2 (unmarked_of_not_mem (by decide))
  have hg : (concept "hunch").WellKinded := rfl
  have hv : ∀ v ∈ (concept "hunch").vars, Unmarked v := List.forall_mem_nil _
  have hall : hunchProblem.leavesOut (concept "hunch") = false := by
    obtain ⟨b, s, hnoted, hcalm, _⟩ := noted_hunch
    unfold Problem.leavesOut
    rw [show hunchProblem.params.maxSteps + 1 = 11 from rfl, hnoted]
    exact hcalm.boundReached
  exact chain_refutes hs plain_store (List.forall_mem_singleton.2 rfl)
    (List.forall_mem_singleton.2 hk) (List.forall_mem_singleton.2 hn) hg hv .default
    (fun _ => 0) 0 r n hrun hneg hbound htime hall

open Nested in
/-- With one fact tried for each goal, something derivable is not found, and no bound is reported. -/
theorem chain_misses_second :
    (∃ r n, StateT.run (ExceptT.run (chain store ⟨[second]⟩ (Cats.concept "second") params
        fun _ => 0)) 0 = (.ok r, n) ∧ r.goalProven = false ∧ r.outcome.boundReached = false ∧
      r.outcome.incomplete = false) ∧
    params.timeout = none ∧ store.Reachable ∧ store.Plain ∧ second.check = .ok second ∧
    ∃ c, Derivable problem.HasFact [second] (Cats.concept "second") c ∧ params.threshold ≤ c := by
  have hs : store.Reachable := Store.Reachable.single _
  have hp : store.Plain := by
    unfold Store.Plain
    decide
  refine ⟨?_, rfl, hs, hp, rfl, Proof.least [0.9, 0.9] * 1.0, ?_, by decide⟩
  · obtain ⟨r, s, hreport, hflags⟩ := report_second
    exact ⟨r, _, run_of_report hreport, hflags⟩
  · have hshort : problem.HasFact (list [Cats.concept "b"]) 0.9 :=
      ⟨_, List.mem_of_getElem? (i := 3) rfl, rfl, rfl⟩
    have hlong : problem.HasFact (list [list [Cats.concept "a"], list [Cats.concept "b"]]) 0.9 :=
      ⟨_, List.mem_of_getElem? (i := 4) rfl, rfl, rfl⟩
    have hlen : [(0.9 : Float), 0.9].length = second.premises.length := rfl
    refine .rule (r := second) (List.mem_singleton_self _) rfl (σ := fun _ => Cats.concept "b")
      (fun _ => rfl) hlen fun pc hpc => ?_
    rcases List.mem_cons.1 hpc with rfl | hpc
    · exact .fact hshort
    · rw [List.mem_singleton.1 hpc]
      exact .fact hlong

end Backward

end Credence
