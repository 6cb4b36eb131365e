import Credence.Engine.Task
import Credence.Proofs.Inference.Alike
import Credence.Proofs.Inference.Analogy
import Credence.Proofs.Inference.Forward.Certain
/-!
# Answers where confidences do not count

Two stores that differ in the confidences of their atoms answer every task without
uncertainty alike, or fail with the same error. For five kinds of tasks nothing more is
needed: an atom counts with a confidence of one, and what they look at are the atoms,
their trees and their strengths. Chaining forward passes over what the facts hold
already, and there it compares stored confidences with the reliability of the rule even
without uncertainty: they have to lie on the same side of it, and a run shows that
otherwise the answers differ.
-/

namespace Credence

open Store

section Strategies

variable {s s' : Store} {params : Params}

/-! ## Backward chaining -/

namespace Backward

theorem confidence_of_certain (pb : Problem) (hu : pb.params.useUncertainty = false)
    (id : AtomId) : pb.confidence id = 1.0 := by
  unfold Problem.confidence
  rw [hu]
  rfl

/-- Chaining backward gives the same answer over twins. -/
theorem chain_twin {α : Type} {part : Truth → α} (h : Twin part s s') (hs : s.Inv) (hs' : s'.Inv)
    (hu : params.useUncertainty = false) {rules : RuleBase} (goal : Pattern) (clock : Clock) :
    chain s' rules goal params clock = chain s rules goal params clock :=
  chain_congr (h.alike hs hs')
    (fun id => (confidence_of_certain _ hu id).trans (confidence_of_certain _ hu id).symm) rfl

end Backward

/-! ## Abduction -/

namespace Abduction

variable (h : Twin Truth.strength s s')
include h

theorem strengthOf_twin : strengthOf s' = strengthOf s := by
  funext useUncertainty id
  unfold strengthOf
  rcases h.get?_cases id with ⟨ha, ha'⟩ | ⟨a, a', ha, ha', hshown⟩
  · rw [ha, ha']
  · rw [ha, ha']
    dsimp only
    rw [Atom.part_of_shown hshown]

/-- Abduction gives the same answer over twins: it looks at strengths only. -/
theorem explain_twin (hs : s.Inv) (hs' : s'.Inv) (observation : Pattern)
    (candidates : List Candidate) :
    explain s' observation candidates params = explain s observation candidates params :=
  explain_congr (h.alike hs hs') (strengthOf_twin h) observation candidates

end Abduction

/-! ## Propagation -/

/-- Propagation gives the same answer over twins: it looks at strengths only. -/
theorem Propagation.reason_twin (h : Twin Truth.strength s s') (hs : s.Inv) (hs' : s'.Inv)
    (graph : List Fact) : reason s' graph params = reason s graph params := by
  refine reason_congr (h.alike hs hs') (fun id => ?_) graph
  have hstrength := congrArg (Option.map fun e => e.2.2) (h.get? id)
  rwa [Option.map_map, Option.map_map] at hstrength

/-! ## Temporal reasoning -/

namespace Temporal

variable {α : Type} {part : Truth → α} (h : Twin part s s')
include h

theorem confidenceOf_twin (f : Fact) : confidenceOf s' false f = confidenceOf s false f := by
  unfold confidenceOf atomOf resolve
  rw [h.locate]
  cases f.confidence with
  | some x => rfl
  | none =>
    cases f.atom with
    | none => rfl
    | some n =>
      dsimp only
      cases s.locate (.ofValue (.int n)) with
      | error e => rfl
      | ok id =>
        rcases h.get?_cases id with ⟨ha, ha'⟩ | ⟨a, a', ha, ha', _⟩
        · simp only [bind, Except.bind, ha, ha']
        · simp only [bind, Except.bind, ha, ha']
          rfl

/-- Temporal reasoning gives the same answer over twins. -/
theorem reason_twin (hu : params.useUncertainty = false) (facts : List Fact) (claims : List Claim)
    (window : Option String) (reference : Option Instant) (clock : Clock) :
    reason s' facts claims params window reference clock =
      reason s facts claims params window reference clock := by
  refine reason_congr ?_ rfl facts claims window reference
  rw [hu]
  exact funext (confidenceOf_twin h)

end Temporal

end Strategies

/-! ## Tasks -/

/-- Whether the atoms that a task of chaining forward can conclude have confidences in both stores
on the same side of the reliabilities of the rules that conclude them; other tasks ask nothing. -/
def Task.Settled (t : Task) (s s' : Store) : Prop :=
  match t.question with
  | .forward premises rules => ∀ ids, premises.mapM s.premises = .ok ids →
    Forward.Settled (Forward.scratch s ids) (Forward.scratch s' ids) rules.inOrder
  | _ => True

/-- Stores that differ in confidences only give the same answers where confidences do not count, or
fail with the same error, as long as no confidence decides whether a rule has anything to say. -/
theorem Task.perform_certain {s s' : Store} (h : s.Reachable) (h' : s'.Reachable)
    (hsame : Twin Truth.strength s s') {t : Task} (hu : t.params.useUncertainty = false)
    (hsettled : t.Settled s s') (clock : Clock) : t.perform clock s' = t.perform clock s := by
  obtain ⟨question, params⟩ := t
  unfold Task.perform
  cases question with
  | forward premises rules =>
    dsimp only
    rw [hsame.premises]
    cases hids : premises.mapM s.premises with
    | error e => rfl
    | ok ids =>
      have hchain := Forward.chain_certain h.inv h'.inv hsame hu ids (hsettled ids hids) clock
      exact congrArg (fun x : Except Error Forward.Result => (do
        let r ← x
        return r.toValue : Reading Value)) hchain
  | backward goal rules =>
    dsimp only
    refine bind_congr fun goal => ?_
    rw [Backward.chain_twin hsame h.inv h'.inv hu]
  | abduction observation candidates =>
    dsimp only
    refine bind_congr fun observation => ?_
    rw [Abduction.explain_twin hsame h.inv h'.inv]
  | analogy source target floor =>
    dsimp only
    rw [hsame.domain, hsame.domain]
    refine bind_congr fun sources => bind_congr fun targets => ?_
    rw [Analogy.reason_twin hsame h.inv h'.inv hu]
  | propagation graph =>
    dsimp only
    rw [Propagation.reason_twin hsame h.inv h'.inv]
  | temporal facts claims window reference =>
    dsimp only
    rw [Temporal.reason_twin hsame hu]

/-! ## Where confidences count all the same -/

namespace Forward.Rows

/-- A pair, the first thing of which is hardly believed. -/
def doubted : Store :=
  ((setTruthValue (.int 1) (.list [.float 0.8, .float 0.3])).run.run pair).2

/-- A rule that concludes the first thing of a pair. -/
def hint (reliability : Float) : Rule :=
  ruleOf (row [.var "$X", .var "$Y"]) (thing "a") reliability

/-- The task of applying this rule to everything. -/
def hinting (reliability : Float) : Task := ⟨.forward none ⟨[hint reliability]⟩, certain⟩

/-- The number of steps that an answer tells. -/
def stepsOf (x : Reading Value) : Option String :=
  ((StateT.run (ExceptT.run x) 0).1.toOption.bind (Value.field? · "totalSteps")).map Value.literal

theorem twin_doubted : Twin Truth.strength pair doubted := by
  have ht : Truth.ofValue (.list [.float 0.8, .float 0.3]) = .ok ⟨0.8, 0.3⟩ := rfl
  have hfirst : pair.resolve (.int 1) = .ok 1 := rfl
  have hstrength : (pair.get? 1).map (·.truth.strength) = some 0.8 := by decide +kernel
  obtain ⟨a, ha, hstrength⟩ := Option.map_eq_some_iff.1 hstrength
  unfold doubted
  rw [run_setTruthValue ht hfirst ha]
  exact twin_retruth (Reachable.single _).inv ha hstrength.symm

end Forward.Rows

open Forward.Rows in
/-- A rule concludes in both stores what neither believes as firmly as the rule. -/
theorem Task.perform_certain_hint :
    (hinting 0.95).Settled pair doubted ∧
      (∀ clock, (hinting 0.95).perform clock doubted = (hinting 0.95).perform clock pair) ∧
      stepsOf ((hinting 0.95).perform (fun _ => 0) pair) = some "1" := by
  have hpair : ∀ a ∈ pair.snapshot.atoms,
      ¬ a.truth.confidence ≥ 0.95 ∧ (a.truth.confidence == 0.95) = false := by decide +kernel
  have hdoubted : ∀ a ∈ doubted.snapshot.atoms,
      ¬ a.truth.confidence ≥ 0.95 ∧ (a.truth.confidence == 0.95) = false := by decide +kernel
  have hsettled : (hinting 0.95).Settled pair doubted := by
    intro ids hids
    cases hids
    rw [RuleBase.inOrder_singleton (r := hint 0.95) rfl]
    intro r hr σ _ id a a' _ ha ha'
    rw [List.mem_singleton.1 hr]
    obtain ⟨hbelow, hother⟩ := hpair a (List.mem_of_find?_eq_some ha)
    obtain ⟨hbelow', hother'⟩ := hdoubted a' (List.mem_of_find?_eq_some ha')
    exact ⟨iff_of_false hbelow' hbelow, hother'.trans hother.symm⟩
  refine ⟨hsettled, fun clock => ?_, by decide +kernel⟩
  exact Task.perform_certain (Reachable.single _) ((Reachable.single _).setTruthValue _ _)
    twin_doubted rfl hsettled clock

open Forward.Rows in
/-- A stored confidence decides whether a rule has anything to conclude. -/
theorem Task.not_perform_certain : ¬ ∀ s s' : Store, s.Reachable → s'.Reachable →
    Twin Truth.strength s s' → ∀ t : Task, t.params.useUncertainty = false →
      ∀ clock, t.perform clock s' = t.perform clock s := by
  intro hall
  have hpair : stepsOf ((hinting 0.8).perform (fun _ => 0) pair) = some "0" := by decide +kernel
  have hdoubted : stepsOf ((hinting 0.8).perform (fun _ => 0) doubted) = some "1" := by
    decide +kernel
  rw [← hall pair doubted (Reachable.single _) ((Reachable.single _).setTruthValue _ _)
    twin_doubted (hinting 0.8) rfl, hdoubted] at hpair
  exact absurd hpair (by decide)

end Credence
