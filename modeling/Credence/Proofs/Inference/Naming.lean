import Credence.Proofs.Inference.Abduction
import Credence.Proofs.Inference.Backward.Names
import Credence.Proofs.Inference.Backward.Refutation
/-!
# The names of variables

What a goal or an observation calls its variables does not matter, as long as it calls
none of them what rules and hypotheses are renamed to. A goal that does use such a name
shares the variable with a rule by accident, and may lose its proof.
-/

namespace Credence

open Pattern

/-- Renaming the variables of a goal or an observation one for one renames the findings and changes
nothing else, if no variable has a name made for a rule or a hypothesis before or after it. -/
theorem answers_of_renamed {s : Store} (hp : s.Plain) {p : Pattern} {ρ : String → String}
    (hinj : ∀ v ∈ p.vars, ∀ w ∈ p.vars, ρ v = ρ w → v = w) {params : Params}
    (htime : params.timeout = none) :
    (∀ rules : RuleBase, (∀ v ∈ p.vars, ¬ rules.Makes v ∧ ¬ rules.Makes (ρ v)) →
      ∀ clock clock', Backward.chain s rules (p.rename ρ) params clock' =
        Backward.Result.rename (renamingOn p.vars ρ) <$> Backward.chain s rules p params clock) ∧
    ∀ candidates, (∀ v ∈ p.vars, ¬ Abduction.Makes candidates v ∧ ¬ Abduction.Makes candidates (ρ v)) →
      Reading.Alongside (Abduction.Result.Renamed (renamingOn p.vars ρ))
        (Abduction.explain s p candidates params)
        (Abduction.explain s (p.rename ρ) candidates params) := by
  refine ⟨fun rules hmade clock clock' => ?_, fun candidates hmade => ?_⟩
  · exact Backward.chain_renamingOn hp hinj (fun v hv => (hmade v hv).1) (fun v hv => (hmade v hv).2)
      htime clock clock'
  · exact Abduction.explain_renamingOn s hinj (fun v hv => (hmade v hv).1)
      (fun v hv => (hmade v hv).2) params

/-! ## A rule for pairs -/

namespace Pairs

open Backward Search
open Backward.Cats (concept)
open Backward.Nested (list)

/-- A store that knows of one short list. -/
def store : Store := ((Store.assert (list [concept "b"]) none).run.run .empty).2

/-- A rule that puts the same thing behind what stands in a short list. -/
def pair : Rule := ⟨.text "pair", [list [.var "$X"]], list [.var "$X", concept "a"], .real 1.0,
  .null, .int 0, true⟩

/-- The question what stands behind a thing. -/
def goal (v : String) : Pattern := list [concept "b", .var v]

/-- The problem to answer it with the usual parameters. -/
def problem : Problem := ⟨store, ⟨[pair]⟩, .default, ⟨none, fun _ => 0⟩⟩

/-- The question meets the rule unless both call their variables the same. -/
theorem unify_goal (v w : String) :
    Unification.unify (goal v) (list [.var w, concept "a"]) .empty =
      if v = w then none else some ⟨[(w, concept "b"), (v, concept "a")]⟩ := by
  unfold Unification.unify
  rw [Substitution.apply_empty, Substitution.apply_empty]
  by_cases h : v = w
  · simp [Unification.solve, Unification.replaceAll, Unification.replace, goal, list, concept, subst,
      occurrences, h]
  · have hbindings : (Table.empty.insert w (concept "b")).insert v (concept "a") =
        ⟨[(w, concept "b"), (v, concept "a")]⟩ := by
      simp [Table.insert, Table.put, Table.empty, Ne.symm h]
    rw [if_neg h, ← hbindings]
    simp [Unification.solve, Unification.replaceAll, Unification.replace, goal, list, concept, subst,
      occurrences, h]

theorem conclusion_pair (suffix : String) :
    (pair.renamed suffix).conclusion = list [.var ("$X" ++ suffix), concept "a"] := rfl

theorem premises_pair (suffix : String) :
    (pair.renamed suffix).premises = [list [.var ("$X" ++ suffix)]] := rfl

theorem rulesFor_goal (v tag : String) : problem.rules.rulesFor (goal v) tag =
    if v = "$X" ++ ("_" ++ tag ++ toString 0) then [] else [pair.renamed ("_" ++ tag ++ toString 0)] := by
  unfold RuleBase.rulesFor
  rw [show problem.rules.inOrder = [pair] from RuleBase.inOrder_singleton rfl]
  unfold RuleBase.rulesFrom RuleBase.rulesFrom
  dsimp only
  rw [conclusion_pair, unify_goal]
  by_cases h : v = "$X" ++ ("_" ++ tag ++ toString 0)
  · rw [if_pos h, if_pos h]
  · rw [if_neg h, if_neg h]

theorem facts_goal (v : String) : problem.facts (goal v) = .ok [] :=
  congrArg Except.ok List.mergeSort_nil

theorem facts_premise : problem.facts (list [concept "b"]) = .ok [⟨⟨[]⟩, 2⟩] :=
  congrArg Except.ok (List.mergeSort_singleton _)

/-- The bindings under which the rule answers the question. -/
def bound (v w : String) : Substitution := ⟨[(w, concept "b"), (v, concept "a")]⟩

theorem apply_premise (v w : String) : (bound v w).apply (list [.var w]) = list [concept "b"] := by
  simp [bound, Substitution.apply, Table.size, Substitution.follow, list, concept, subst, substList,
    Table.get?, Table.find]

theorem rulesFor_premise (tag : String) : problem.rules.rulesFor (list [concept "b"]) tag = [] := by
  have hunify : ∀ w, Unification.unify (list [concept "b"]) (list [.var w, concept "a"]) .empty =
      none := by
    intro w
    unfold Unification.unify
    rw [Substitution.apply_empty, Substitution.apply_empty]
    simp [Unification.solve, list]
  unfold RuleBase.rulesFor
  rw [show problem.rules.inOrder = [pair] from RuleBase.inOrder_singleton rfl]
  unfold RuleBase.rulesFrom RuleBase.rulesFrom
  dsimp only
  rw [conclusion_pair, hunify]

/-- The premise of the rule is a fact. -/
theorem lists_premise (levels : Nat) (open_ : List String) (v w : String) :
    Lists State.Calm (problem.prove (levels + 1) 1 open_ (list [.var w]) (bound v w))
      [(bound v w, .node ((bound v w).apply ((bound v w).apply (list [.var w])))
        (problem.confidence 2) 1 .fact [])] :=
  lists_prove rfl ((apply_premise v w).symm ▸ facts_premise)
    (lists_byFact ⟨⟨[]⟩, 2⟩ (show extend store (bound v w) ⟨[]⟩ = .ok (bound v w) from rfl))
    (fun tag => (apply_premise v w).symm ▸ rulesFor_premise tag) open_

theorem report_found :
    ∃ r s, problem.report (goal "$A") .start = (.ok r, s) ∧ r.goalProven = true := by
  have hother : ¬ "$A" = "$X" ++ ("_" ++ (toString 1 ++ "_") ++ toString 0) := by decide +kernel
  have hunify := unify_goal "$A" ("$X" ++ ("_" ++ (toString 1 ++ "_") ++ toString 0))
  rw [if_neg hother, ← conclusion_pair] at hunify
  have hpremises := lists_proveAll_cons (lists_premise 9 [(goal "$A").variantKey] "$A"
    ("$X" ++ ("_" ++ (toString 1 ++ "_") ++ toString 0))) lists_proveAll_nil
  rw [← premises_pair] at hpremises
  have hrule := lists_ofEach_singleton (lists_tried 0 hunify hpremises)
  have hrules := rulesFor_goal "$A" (toString 1 ++ "_")
  rw [if_neg hother] at hrules
  rw [← hrules] at hrule
  obtain ⟨s, hs, hrun⟩ := fold_prove_start rfl (facts_goal "$A") (Drawn.step problem.params)
    ⟨none, 0, false⟩ hrule
  exact ⟨_, _, report_of_fold hrun, rfl⟩

theorem report_lost :
    ∃ r s, problem.report (goal "$X_1_0") .start = (.ok r, s) ∧ r.goalProven = false := by
  have hsame : "$X_1_0" = "$X" ++ ("_" ++ (toString 1 ++ "_") ++ toString 0) := by decide +kernel
  have hother : ¬ "$X_1_0" = "$X" ++ ("_" ++ "why_" ++ toString 0) := by decide +kernel
  have hrules := rulesFor_goal "$X_1_0" (toString 1 ++ "_")
  rw [if_pos hsame] at hrules
  have hnone : Lists State.Calm (ofEach (tried (problem.prove 10 1 [(goal "$X_1_0").variantKey])
      (goal "$X_1_0") .empty 0) (problem.rules.rulesFor (goal "$X_1_0") (toString 1 ++ "_"))) [] := by
    rw [hrules]
    exact .done
  obtain ⟨s, hs, hnext⟩ := next_prove_start rfl (facts_goal "$X_1_0") hnone
  have hwhy := rulesFor_goal "$X_1_0" "why_"
  have hunify := unify_goal "$X_1_0" ("$X" ++ ("_" ++ "why_" ++ toString 0))
  rw [if_neg hother] at hwhy hunify
  rw [← conclusion_pair] at hunify
  obtain ⟨r, t, hreport, hneg, -⟩ := report_of_passes hnext hs hwhy hunify <| by
    rw [premises_pair]
    exact passes_cons (lists_premise 9 _ _ _) fun a _ => passes_nil _ a.1
  exact ⟨r, t, hreport, hneg⟩

theorem run_goal {v : String} {r : Backward.Result} {s : State}
    (h : problem.report (goal v) .start = (.ok r, s)) :
    StateT.run (ExceptT.run (chain store ⟨[pair]⟩ (goal v) .default fun _ => 0)) 0 =
      (.ok r, 0 + s.lookups) := run_of_report h

theorem plain_store : store.Plain := by
  unfold Store.Plain
  decide

end Pairs

open Pairs in
/-- The question may as well call its variable `$B`. -/
theorem answers_of_renamed_pair :
    (∃ r n, StateT.run (ExceptT.run (Backward.chain store ⟨[pair]⟩ (goal "$B") .default fun _ => 1)) 0 =
      (.ok r, n) ∧ r.goalProven = true) ∧
    Reading.Alongside (Abduction.Result.Renamed (renamingOn ["$A"] fun _ => "$B"))
      (Abduction.explain store (goal "$A") [.ready pair.hypothesis] .default)
      (Abduction.explain store (goal "$B") [.ready pair.hypothesis] .default) := by
  have hinj : ∀ v ∈ (goal "$A").vars, ∀ w ∈ (goal "$A").vars, "$B" = "$B" → v = w := by decide
  have hplain : ∀ v ∈ (goal "$A").vars, '_' ∉ v.toList ∧ '_' ∉ "$B".toList := by decide
  have htime : Params.default.timeout = none := rfl
  obtain ⟨hchain, hexplain⟩ := answers_of_renamed plain_store hinj htime
  constructor
  · obtain ⟨r, s, hreport, hproven⟩ := report_found
    have hrun := hchain ⟨[pair]⟩ (fun v hv =>
      (hplain v hv).imp (mt RuleBase.underscore_of_makes) (mt RuleBase.underscore_of_makes))
      (fun _ => 0) fun _ => 1
    have hrenamed := congrArg (fun x => StateT.run (ExceptT.run x) 0) hrun
    refine ⟨r.rename (renamingOn ["$A"] fun _ => "$B"), 0 + s.lookups, hrenamed.trans ?_, hproven⟩
    rw [map_eq_pure_bind, Store.run_question_bind, run_goal hreport]
    rfl
  · exact hexplain _ fun v hv =>
      (hplain v hv).imp (mt Abduction.underscore_of_makes) (mt Abduction.underscore_of_makes)

open Pairs in
/-- A question that calls its variable what the variable of a rule is renamed to loses its answer. -/
theorem not_answers_of_renamed :
    let ρ := Equiv.swap "$A" "$X_1_0"
    store.Plain ∧ pair.check = .ok pair ∧ Params.default.timeout = none ∧
    ∃ r n r' n', StateT.run (ExceptT.run (Backward.chain store ⟨[pair]⟩ (goal "$A") .default
          fun _ => 0)) 0 = (.ok r, n) ∧
        StateT.run (ExceptT.run (Backward.chain store ⟨[pair]⟩ ((goal "$A").rename ρ) .default
          fun _ => 0)) 0 = (.ok r', n') ∧
        r.goalProven = true ∧ r'.goalProven = false := by
  intro ρ
  have hgoal : (goal "$A").rename ρ = goal "$X_1_0" := by
    have hvar : ρ "$A" = "$X_1_0" := Equiv.swap_apply_left _ _
    exact congrArg goal hvar
  obtain ⟨r, s, hreport, hproven⟩ := report_found
  obtain ⟨r', s', hreport', hlost⟩ := report_lost
  rw [hgoal]
  exact ⟨plain_store, rfl, rfl, r, _, r', _, run_goal hreport, run_goal hreport', hproven, hlost⟩

end Credence
