import Credence.Proofs.Inference.Backward.Refutation
import Credence.Proofs.Inference.Backward.Rename
import Credence.Proofs.Inference.Backward.Report
import Credence.Proofs.Rule.Retag
import Credence.Proofs.Search.Parallel
/-!
# Why there is no proof

The explanation of a failure takes the first rule that applies to the goal and proves
its premises one after another, never going back. The search has been there before:
under other names for the variables of rules it began with the same rule and the same
proofs. So one of the premises has no proof, for else the search would have had one.

The two runs go in parallel: what the search does under the tags of its goals, from the
first on, the explanation does under its own tag and those of later goals.
-/

namespace Credence.Backward

open Function (Injective)
open Pattern Substitution Search

/-! ## In parallel under other tags -/

/-- Whether the goals of a state are numbered behind those of another by a distance. -/
structure State.Ahead (d : Nat) (s t : State) : Prop where
  fresh : t.fresh = s.fresh + d
  begun : 1 ≤ s.fresh

theorem State.Ahead.succ {d : Nat} {s t : State} (h : s.Ahead d t) :
    State.Ahead d { s with fresh := s.fresh + 1 } { t with fresh := t.fresh + 1 } :=
  ⟨by rw [h.fresh, Nat.add_right_comm], Nat.le_succ_of_le h.begun⟩

variable {pb : Problem} {f : String → String} {E : State → State → Prop}
  {prove prove' : Pattern → Substitution → Proving (Substitution × Proof)}

/-- Whether one prover has for renamed goals the renamed answers of another, one for one. -/
def InStep (E : State → State → Prop) (f : String → String)
    (prove prove' : Pattern → Substitution → Proving (Substitution × Proof)) : Prop :=
  ∀ g θ, Parallel E (fun a b => b = renameAnswer f a) (prove g θ) (prove' (g.rename f) (θ.rename f))

theorem parallel_byFact (hf : Injective f) (hp : pb.store.Plain) (goal : Pattern)
    (θ : Substitution) (depth : Nat) (m : Match) :
    Parallel E (fun a b => b = renameAnswer f a) (pb.byFact goal θ depth m)
      (pb.byFact (goal.rename f) (θ.rename f) depth (m.rename f)) := by
  rw [byFact_rename hf hp]
  unfold Problem.byFact
  split
  · exact .fail _
  · refine .yield ?_ .done
    rfl

theorem parallel_proveAll (h : InStep E f prove prove') (gs : List Pattern) (θ : Substitution) :
    Parallel E (fun a b => b = (a.1.rename f, a.2.map (Proof.rename f))) (proveAll prove gs θ)
      (proveAll prove' (gs.map (Pattern.rename f)) (θ.rename f)) := by
  induction gs generalizing θ with
  | nil =>
    refine .yield ?_ .done
    rfl
  | cons g gs ih =>
    unfold proveAll
    refine (h g θ).bind ?_
    rintro ⟨θ₁, p⟩ _ rfl
    refine (ih θ₁).map ?_
    rintro ⟨θ₂, ps⟩ _ rfl
    rfl

theorem parallel_tried (hf : Injective f) (h : InStep E f prove prove') (goal : Pattern)
    (θ : Substitution) (depth : Nat) (r : Rule) :
    Parallel E (fun a b => b = renameAnswer f a) (tried prove goal θ depth r)
      (tried prove' (goal.rename f) (θ.rename f) depth (r.rename f)) := by
  unfold tried
  rw [show (r.rename f).conclusion = r.conclusion.rename f from rfl, Unification.unify_rename hf]
  cases Unification.unify goal r.conclusion θ with
  | none => exact .done
  | some θ₁ =>
    refine (parallel_proveAll h r.premises θ₁).map ?_
    rintro ⟨θ₂, ps⟩ _ rfl
    exact congrArg (Prod.mk _) (byRule_rename hf r goal depth θ₂ ps)

/-- The search for a goal runs in parallel with that for the retagged goal from a state ahead. -/
theorem inStep_prove (hp : pb.store.Plain) (hb : ∀ r ∈ pb.rules.rules, r.Plain)
    (ht : pb.deadline.timeout = none) (d levels depth : Nat) (open_ : List String) :
    InStep (State.Ahead d) (retag (afresh d)) (pb.prove levels depth open_)
      (pb.prove levels depth open_) := by
  have hf := injective_retag_afresh d
  have hlive : ∀ s, ¬ (State.poll pb.deadline s).expired = true := by
    intro s
    unfold State.poll Deadline.poll
    rw [ht]
    exact Bool.false_ne_true
  have hpoll : ∀ s t, State.Ahead d s t →
      State.Ahead d (State.poll pb.deadline s) (State.poll pb.deadline t) :=
    fun s t h => ⟨h.fresh, h.begun⟩
  intro goal θ
  induction levels generalizing depth open_ goal θ with
  | zero =>
    unfold Problem.prove
    refine .act hpoll fun s t _ => ?_
    rw [if_neg (hlive s), if_neg (hlive t)]
    exact .act (fun s t h => ⟨h.fresh, h.begun⟩) fun _ _ _ => .done
  | succ levels ih =>
    unfold Problem.prove
    refine .act hpoll fun s t _ => ?_
    rw [if_neg (hlive s), if_neg (hlive t)]
    dsimp only
    rw [apply_rename hf, variantKey_rename hf, facts_rename hf]
    refine .act (fun s t h => ⟨h.fresh, h.begun⟩) fun s t _ => ?_
    cases pb.facts (θ.apply goal) with
    | error e => exact .fail e
    | ok ms =>
      show Parallel _ _ _ (Search.append (Search.ofEach _ (ms.map _)) _)
      rw [ofEach_map]
      refine (parallel_ofEach fun m _ => parallel_byFact hf hp _ θ depth m).append ?_
      by_cases hopen : open_.contains (θ.apply goal).variantKey = true
      · rw [if_pos hopen, if_pos hopen]
        exact .done
      · rw [if_neg hopen, if_neg hopen]
        refine .act (fun s t h => h.succ) fun s t h => ?_
        have htag : toString (t.fresh + 1) = afresh d (toString (s.fresh + 1)) := by
          rw [afresh_toString d (Nat.succ_le_succ h.begun), h.fresh, Nat.add_right_comm]
        dsimp only
        rw [htag, RuleBase.rulesFor_retag hf hb _ (underscore_not_mem_toString _), ofEach_map]
        exact parallel_ofEach fun r _ => parallel_tried hf (ih (depth + 1) _) _ θ depth r

/-! ## Premises one after another -/

/-- The first proofs of goals, each under the bindings of those before it. -/
inductive FirstProofs (pb : Problem) (key : String) :
    List Pattern → Substitution → State → List Proof → Substitution → State → Prop
  | nil (θ : Substitution) (s : State) : FirstProofs pb key [] θ s [] θ s
  | cons {g : Pattern} {gs : List Pattern} {θ θ₁ θ₂ : Substitution} {s s₁ s₂ : State} {p : Proof}
    {ps : List Proof}
    (hg : (pb.prove pb.params.maxSteps 1 [key] g θ).next s = (.ok (some (θ₁, p)), s₁))
    (hgs : FirstProofs pb key gs θ₁ s₁ ps θ₂ s₂) : FirstProofs pb key (g :: gs) θ s (p :: ps) θ₂ s₂

/-- The premise that is reported has no proof under the bindings of those before it. -/
theorem firstProofs_of_provePremises {key : String} {gs : List Pattern} {θ : Substitution}
    {s s₂ : State} {g : Pattern} {ps : List Proof}
    (h : pb.provePremises key gs θ s = (.ok (some g, ps), s₂)) :
    ∃ before q after θ₁ s₁, gs = before ++ q :: after ∧ FirstProofs pb key before θ s ps θ₁ s₁ ∧
      (pb.prove pb.params.maxSteps 1 [key] q θ₁).next s₁ = (.ok none, s₂) ∧ g = θ₁.apply q := by
  induction gs generalizing θ s ps with
  | nil => cases h
  | cons q gs ih =>
    unfold Problem.provePremises at h
    rcases hq : (pb.prove pb.params.maxSteps 1 [key] q θ).next s with ⟨e | (_ | ⟨θ₁, p⟩), s₁⟩
    · rw [hq] at h
      cases h
    · rw [hq] at h
      cases h
      exact ⟨[], q, gs, θ, s, rfl, .nil θ s, hq, rfl⟩
    · rw [hq] at h
      dsimp only at h
      rcases hrest : pb.provePremises key gs θ₁ s₁ with ⟨e | ⟨failed, rest⟩, s'⟩
      · rw [hrest] at h
        cases h
      · rw [hrest] at h
        cases h
        obtain ⟨before, q', after, θ₂, s'', rfl, hproofs, hnone, hg⟩ := ih hrest
        exact ⟨q :: before, q', after, θ₂, s'', rfl, .cons hq hproofs, hnone, hg⟩

/-- Where one search has no proof of all goals, proving the goals one by one in parallel ends at
some goal that has none. -/
theorem provePremises_of_parallel {d : Nat} {key : String}
    (h : InStep (State.Ahead d) f prove (pb.prove pb.params.maxSteps 1 [key])) {gs : List Pattern}
    {θ : Substitution} {s t s' : State} (hst : State.Ahead d s t)
    (hnone : (proveAll prove gs θ).next s = (.ok none, s')) :
    ∃ g ps t', pb.provePremises key (gs.map (Pattern.rename f)) (θ.rename f) t =
      (.ok (some g, ps), t') := by
  induction gs generalizing θ s t s' with
  | nil => cases hnone
  | cons g gs ih =>
    obtain ⟨hout, hend⟩ := (h g θ).next hst
    unfold proveAll at hnone
    rw [List.map_cons]
    unfold Problem.provePremises
    rcases hg : (prove g θ).next s with ⟨e | (_ | ⟨θ₁, p⟩), s₁⟩
    · rw [next_bind_of_error _ hg] at hnone
      cases hnone
    · rcases hg' : (pb.prove pb.params.maxSteps 1 [key] (g.rename f) (θ.rename f)).next t with
        ⟨out, t₁⟩
      rw [hg, hg'] at hout
      cases hout
      exact ⟨_, _, _, rfl⟩
    · rcases hg' : (pb.prove pb.params.maxSteps 1 [key] (g.rename f) (θ.rename f)).next t with
        ⟨out, t₁⟩
      rw [hg, hg'] at hout
      have hahead : State.Ahead d s₁ t₁ := by
        rw [hg, hg'] at hend
        exact hend
      cases hout with
      | some hanswer =>
        subst hanswer
        obtain ⟨s₂, hrest⟩ := next_bind_none hg hnone
        obtain ⟨g', ps, t', hprove⟩ := ih hahead (next_map_none hrest)
        refine ⟨g', p.rename f :: ps, t', ?_⟩
        dsimp only [renameAnswer]
        rw [hprove]

/-- So it is for the premises of a rule that was tried in vain. -/
theorem provePremises_of_tried (hf : Injective f) {d : Nat} {key : String}
    (h : InStep (State.Ahead d) f prove (pb.prove pb.params.maxSteps 1 [key])) {goal : Pattern}
    (hfixed : goal.rename f = goal) {depth : Nat} {r : Rule} {θ : Substitution} {s t s' : State}
    (hst : State.Ahead d s t) (hnone : (tried prove goal .empty depth r).next s = (.ok none, s'))
    (hunify : Unification.unify goal (r.rename f).conclusion .empty = some θ) :
    ∃ g ps t', pb.provePremises key (r.rename f).premises θ t = (.ok (some g, ps), t') := by
  have hrename := Unification.unify_rename hf goal r.conclusion .empty
  rw [hfixed] at hrename
  obtain ⟨θ₁, hθ₁, rfl⟩ := Option.map_eq_some_iff.1 (hrename.symm.trans hunify)
  unfold tried at hnone
  rw [hθ₁] at hnone
  exact provePremises_of_parallel h hst (next_map_none hnone)

/-! ## The rules of the goal -/

/-- Where facts give no first answer there are none, and nothing was done. -/
theorem nil_of_next_byFact {goal : Pattern} {θ : Substitution} {depth : Nat} {ms : List Match}
    {s s₁ : State} (h : (ofEach (pb.byFact goal θ depth) ms).next s = (.ok none, s₁)) :
    ms = [] ∧ s₁ = s := by
  cases ms with
  | nil =>
    cases h
    exact ⟨rfl, rfl⟩
  | cons m ms =>
    obtain ⟨s', hfact, _⟩ := next_append_none h
    unfold Problem.byFact at hfact
    split at hfact <;> cases hfact

/-- A search without answers has tried the rules of the goal as those of the first one. -/
theorem tried_of_next_none (ht : pb.deadline.timeout = none) {levels : Nat} {goal : Pattern}
    {s : State} (h : (pb.prove (levels + 1) 0 [] goal .empty).next .start = (.ok none, s)) :
    ∃ s₁, s₁.fresh = 1 ∧ (ofEach (tried (pb.prove levels 1 [goal.variantKey]) goal .empty 0)
      (pb.rules.rulesFor goal (toString 1 ++ "_"))).next s₁ = (.ok none, s) := by
  have hlive : ¬ (State.poll pb.deadline .start).expired = true := by
    unfold State.poll Deadline.poll
    rw [ht]
    exact Bool.false_ne_true
  unfold Problem.prove at h
  rw [next_act, if_neg hlive] at h
  dsimp only at h
  rw [next_act, apply_empty] at h
  cases hfacts : pb.facts goal with
  | error e =>
    rw [hfacts] at h
    cases h
  | ok ms =>
    rw [hfacts] at h
    obtain ⟨s', hms, hrest⟩ := next_append_none h
    obtain ⟨_, rfl⟩ := nil_of_next_byFact hms
    exact ⟨_, rfl, hrest⟩

/-! ## Explanations -/

/-- What an explanation says of a goal without proofs. If no enabled rule applies to the goal, it
names the goal alone. Else it names the first premise without proof of the first rule that applies,
under the bindings of the first proofs of the premises before, and it shows these. -/
inductive Explains (pb : Problem) (goal : Pattern) (s : State) : List Subgoal → List Proof → Prop
  | goal (h : ∀ r ∈ pb.rules.rules, r.enabled = true → ¬ r.Applies goal) :
    Explains pb goal s [⟨goal, false, 0.0, 0, none⟩] []
  | premise {before after : List Rule} {r : Rule} {θ θ₁ : Substitution} {earlier later : List Pattern}
    {g : Pattern} {ps : List Proof} {s₁ s₂ : State}
    (horder : pb.rules.inOrder = before ++ r :: after) (hbefore : ∀ q ∈ before, ¬ q.Applies goal)
    (happlies : r.Applies goal)
    (hunify : Unification.unify goal (r.renamed (tagged "why" before.length)).conclusion .empty =
      some θ)
    (hpremises : (r.renamed (tagged "why" before.length)).premises = earlier ++ g :: later)
    (hproofs : FirstProofs pb goal.variantKey earlier θ s ps θ₁ s₁)
    (hnone : (pb.prove pb.params.maxSteps 1 [goal.variantKey] g θ₁).next s₁ = (.ok none, s₂)) :
    Explains pb goal s [⟨goal, false, 0.0, 0, none⟩,
      ⟨θ₁.apply g, false, 0.0, 1, some (.rule r.name)⟩] (Proof.postorderList ps)

section

variable (hp : pb.store.Plain) (hb : ∀ r ∈ pb.rules.rules, r.Plain)
  (ht : pb.deadline.timeout = none)
include hp hb ht

/-- Where the search ends, its goals are numbered from the first one on. -/
theorem ahead_of_next_tried {levels depth : Nat} {open_ : List String} {goal : Pattern}
    {rs : List Rule} {s s₁ : State} {out : Except Error (Option (Substitution × Proof))}
    (hfresh : s.fresh = 1)
    (h : (ofEach (tried (pb.prove levels 1 open_) goal .empty depth) rs).next s = (out, s₁)) :
    State.Ahead (s₁.fresh - 1) s s₁ := by
  -- The search goes in parallel with itself, so what holds of related states holds at its end.
  have hself := (parallel_ofEach fun r (_ : r ∈ rs) => parallel_tried (injective_retag_afresh 0)
    (inStep_prove hp hb ht 0 levels 1 open_) goal .empty depth r).next (s := s) ⟨rfl, hfresh.ge⟩
  rw [h] at hself
  have hbegun : 1 ≤ s₁.fresh := hself.2.begun
  refine ⟨?_, hfresh.ge⟩
  rw [hfresh, Nat.add_sub_cancel' hbegun]

/-- Of the first rule that applies to a goal without proofs, the explanation finds a premise that
it cannot prove. -/
theorem provePremises_of_next_none {goal : Pattern} (hgoal : ∀ v ∈ goal.vars, '_' ∉ v.toList)
    {s : State}
    (h : (pb.prove (pb.params.maxSteps + 1) 0 [] goal .empty).next .start = (.ok none, s)) {r : Rule}
    {rest : List Rule} (hrules : pb.rules.rulesFor goal ("why" ++ "_") = r :: rest)
    {θ : Substitution} (hunify : Unification.unify goal r.conclusion .empty = some θ) :
    ∃ g ps t, pb.provePremises goal.variantKey r.premises θ s = (.ok (some g, ps), t) := by
  obtain ⟨s₁, hfresh, htried⟩ := tried_of_next_none ht h
  have hahead := ahead_of_next_tried hp hb ht hfresh htried
  -- The search has tried this rule first, under its own tag, and has not proven all its premises.
  rw [RuleBase.rulesFor_why hb hgoal (s.fresh - 1)] at hrules
  obtain ⟨r₁, rest₁, hrules₁, rfl, _⟩ := List.map_eq_cons_iff.1 hrules
  rw [hrules₁] at htried
  obtain ⟨s₂, hfail, _⟩ := next_append_none htried
  exact provePremises_of_tried (injective_retag_afresh (s.fresh - 1))
    (inStep_prove hp hb ht (s.fresh - 1) pb.params.maxSteps 1 [goal.variantKey])
    (rename_retag_of_plain hgoal) hahead hfail hunify

/-- Where the search ends without answers, the explanation goes on. -/
theorem explains_of_next_none {goal : Pattern} (hgoal : ∀ v ∈ goal.vars, '_' ∉ v.toList)
    {s : State}
    (h : (pb.prove (pb.params.maxSteps + 1) 0 [] goal .empty).next .start = (.ok none, s)) :
    ∃ subgoals ps s', pb.explain goal s = (.ok (subgoals, ps), s') ∧
      Explains pb goal s subgoals (Proof.postorderList ps) := by
  have hplain : ∀ r ∈ pb.rules.inOrder, r.Plain := fun r hr => hb r (RuleBase.mem_inOrder.1 hr).1
  rcases RuleBase.rulesFrom_cases goal ("why" ++ "_") 0 pb.rules.inOrder with
    ⟨hnil, hfails⟩ | ⟨before, r, after, rest, horder, hbefore, hfirst, hsome⟩
  · have hexplain : pb.explain goal s = (.ok ([⟨goal, false, 0.0, 0, none⟩], []), s) := by
      unfold Problem.explain
      rw [show pb.rules.rulesFor goal "why_" = [] from hnil]
    refine ⟨_, _, _, hexplain, .goal fun r hr henabled => ?_⟩
    exact (hfails r (RuleBase.mem_inOrder.2 ⟨hr, henabled⟩)).not_applies hgoal (hb r hr)
  · rw [horder] at hplain
    rw [Nat.zero_add] at hfirst hsome
    obtain ⟨θ, hunify⟩ := Option.ne_none_iff_exists'.1 hsome
    obtain ⟨g, ps, s', hpremises⟩ := provePremises_of_next_none hp hb ht hgoal h hfirst hunify
    obtain ⟨earlier, q, later, θ₁, s₁, hsplit, hproofs, hnone, rfl⟩ :=
      firstProofs_of_provePremises hpremises
    have hexplain : pb.explain goal s = (.ok ([⟨goal, false, 0.0, 0, none⟩,
        ⟨θ₁.apply q, false, 0.0, 1, some (.rule r.name)⟩], ps), s') := by
      unfold Problem.explain
      rw [show pb.rules.rulesFor goal "why_" = _ from hfirst]
      dsimp only
      rw [hunify]
      dsimp only
      rw [hpremises]
      rfl
    refine ⟨_, _, _, hexplain, .premise horder (fun b hin => ?_) ?_ hunify hsplit hproofs hnone⟩
    · exact (hbefore b hin).not_applies hgoal (hplain b (List.mem_append_left _ hin))
    · have hr : r.Plain := hplain r (List.mem_append_right _ (List.mem_cons_self ..))
      exact (hr.unify_ne_none_iff hgoal "why" before.length).1 hsome

end

/-- The run that draws no proof of a goal reports why there is none. -/
theorem chain_explains {store : Store} (hp : store.Plain) {rules : RuleBase}
    (hb : ∀ r ∈ rules.rules, r.Plain) (goal : Pattern) (hgoal : ∀ v ∈ goal.vars, '_' ∉ v.toList)
    (params : Params) (ht : params.timeout = none) (clock : Clock) (n : Nat) {s : State}
    (h : ((Problem.mk store rules params ⟨params.timeout, clock⟩).prove (params.maxSteps + 1) 0 []
      goal .empty).next .start = (.ok none, s)) :
    ∃ r n', StateT.run (ExceptT.run (chain store rules goal params clock)) n = (.ok r, n') ∧
      r.goalProven = false ∧
      Explains (Problem.mk store rules params ⟨params.timeout, clock⟩) goal s r.subgoals r.steps := by
  let pb := Problem.mk store rules params ⟨params.timeout, clock⟩
  obtain ⟨subgoals, ps, s', hexplain, hexplains⟩ :=
    explains_of_next_none (show pb.store.Plain from hp) hb ht hgoal h
  have hreport := report_of_next_none h hexplain
  exact ⟨_, _, run_of_report hreport, rfl, hexplains⟩

namespace Nested

open Cats (concept)

theorem plain_second : second.Plain := by
  unfold Rule.Plain
  decide +kernel

end Nested

open Cats Nested in
/-- The rule proves its first premise and not its second one. -/
theorem chain_explains_second :
    Nested.store.Plain ∧ second.Plain ∧ ∃ r n, StateT.run (ExceptT.run
      (chain Nested.store ⟨[second]⟩ (concept "second") Nested.params fun _ => 0)) 0 = (.ok r, n) ∧
        r.goalProven = false ∧ r.subgoals.length = 2 := by
  have hplain : Nested.store.Plain := by
    unfold Store.Plain
    decide +kernel
  have hrules : ∀ r ∈ (RuleBase.mk [second]).rules, r.Plain := by
    intro r hr
    rw [List.mem_singleton.1 hr]
    exact plain_second
  obtain ⟨s, hnext, -⟩ := next_second
  obtain ⟨r, n, hrun, hproven, hexplains⟩ :=
    chain_explains hplain hrules (concept "second") nofun Nested.params rfl (fun _ => 0) 0 hnext
  refine ⟨hplain, plain_second, r, n, hrun, hproven, ?_⟩
  generalize r.subgoals = subgoals, r.steps = steps at hexplains
  cases hexplains with
  | goal h => exact absurd ⟨.var, .var, rfl⟩ (h second (List.mem_cons_self ..) rfl)
  | premise => rfl

end Credence.Backward
