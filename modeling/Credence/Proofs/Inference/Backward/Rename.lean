import Credence.Inference.Backward
import Credence.Proofs.Rule.Made
import Credence.Proofs.Search.Mapping
import Credence.Proofs.Store.Rename
/-!
# Backward chaining from renamed goals

A search for proofs from a renamed goal is the search from the goal with all its answers
renamed, step by step, as long as the renaming leaves the names alone that are made for
rules. So is the report.
-/

namespace Credence

open Function (Injective)
open Pattern

variable {f : String → String}

/-! ## Renamed proofs -/

namespace Proof

mutual

/-- The proof with the variables of its goals renamed. -/
def rename (f : String → String) : Proof → Proof
  | node g c d s cs => node (g.rename f) c d s (renameList f cs)

/-- The proofs with the variables of their goals renamed. -/
def renameList (f : String → String) : List Proof → List Proof
  | [] => []
  | c :: cs => rename f c :: renameList f cs

end

theorem renameList_eq_map (cs : List Proof) : renameList f cs = cs.map (rename f) := by
  induction cs with
  | nil => rfl
  | cons c cs ih => exact congrArg (rename f c :: ·) ih

theorem confidence_rename (p : Proof) : (p.rename f).confidence = p.confidence := by
  cases p
  rfl

mutual

theorem preorder_rename (p : Proof) : (p.rename f).preorder = p.preorder.map (rename f) := by
  cases p with
  | node g c d s cs => exact congrArg (_ :: ·) (preorderList_rename cs)

theorem preorderList_rename (cs : List Proof) :
    preorderList (renameList f cs) = (preorderList cs).map (rename f) := by
  cases cs with
  | nil => rfl
  | cons c cs =>
    unfold renameList preorderList
    rw [List.map_append, preorder_rename c, preorderList_rename cs]

end

mutual

theorem postorder_rename (p : Proof) : (p.rename f).postorder = p.postorder.map (rename f) := by
  cases p with
  | node g c d s cs =>
    unfold rename postorder
    rw [List.map_append, postorderList_rename cs]
    rfl

theorem postorderList_rename (cs : List Proof) :
    postorderList (renameList f cs) = (postorderList cs).map (rename f) := by
  cases cs with
  | nil => rfl
  | cons c cs =>
    unfold renameList postorderList
    rw [List.map_append, postorder_rename c, postorderList_rename cs]

end

theorem confidences_rename (ps : List Proof) :
    (ps.map (rename f)).map confidence = ps.map confidence := by
  rw [List.map_map]
  exact List.map_congr_left fun p _ => confidence_rename p

theorem weakest_rename (p : Proof) : (p.rename f).weakest = p.weakest := by
  unfold weakest
  rw [preorder_rename, confidences_rename]

end Proof

namespace Backward

/-- An answer of the prover with its variables renamed. -/
def renameAnswer (f : String → String) (a : Substitution × Proof) : Substitution × Proof :=
  (a.1.rename f, a.2.rename f)

/-! ## Facts -/

section Facts

variable (hf : Injective f)
include hf

theorem facts_rename (pb : Problem) (goal : Pattern) :
    pb.facts (goal.rename f) = (pb.facts goal).map (List.map (Match.rename f)) := by
  unfold Problem.facts
  rw [Store.matchesOf_rename hf]
  cases pb.store.matchesOf goal with
  | error e => rfl
  | ok ms =>
    refine congrArg Except.ok ?_
    dsimp only
    rw [← List.map_take, List.map_mergeSort]
    exact fun _ _ _ _ => rfl

theorem extend_rename {s : Store} (hp : s.Plain) (θ : Substitution) (b : Bindings) :
    extend s (θ.rename f) (b.rename f) = (extend s θ b).map (Substitution.rename f) := by
  show List.foldlM _ _ (b.entries.map fun e => (f e.1, e.2)) = Except.map _ (List.foldlM _ _ _)
  rw [List.foldlM_map]
  dsimp only
  induction b.entries generalizing θ with
  | nil => rfl
  | cons e es ih =>
    rw [List.foldlM_cons, List.foldlM_cons]
    cases htree : s.toPattern e.2 with
    | error e => rfl
    | ok p =>
      have hground : p.rename f = p := rename_of_isGround (Store.isGround_of_patternWithin hp htree)
      have hinsert : (θ.rename f).insert (f e.1) (p.rename f) =
          Substitution.rename f (θ.insert e.1 p) := Table.insert_relabel hf θ e.1 p
      rw [hground] at hinsert
      show List.foldlM _ ((θ.rename f).insert (f e.1) p) es = _
      rw [hinsert]
      exact ih _

theorem byFact_rename {pb : Problem} (hp : pb.store.Plain) (goal : Pattern) (θ : Substitution)
    (depth : Nat) (m : Match) :
    pb.byFact (goal.rename f) (θ.rename f) depth (m.rename f) =
      (pb.byFact goal θ depth m).map (renameAnswer f) := by
  unfold Problem.byFact
  rw [show (m.rename f).bindings = m.bindings.rename f from rfl, extend_rename hf hp]
  cases extend pb.store θ m.bindings with
  | error e => rfl
  | ok θ' =>
    show Search.yield _ _ = Search.yield _ _
    rw [Substitution.apply_rename hf]
    rfl

end Facts

/-! ## The search -/

variable {pb : Problem}

theorem byRule_rename (hf : Injective f) (r : Rule) (goal : Pattern) (depth : Nat)
    (θ : Substitution) (ps : List Proof) :
    byRule r (goal.rename f) depth (θ.rename f) (ps.map (Proof.rename f)) =
      (byRule r goal depth θ ps).rename f := by
  unfold byRule Proof.rename
  rw [Substitution.apply_rename hf, Proof.confidences_rename, Proof.renameList_eq_map]

/-- Premises that are left alone are proven under renamed bindings as they were before. -/
theorem proveAll_rename {prove : Pattern → Substitution → Proving (Substitution × Proof)}
    (h : ∀ goal θ, prove (goal.rename f) (θ.rename f) = (prove goal θ).map (renameAnswer f))
    {gs : List Pattern} (hgs : ∀ g ∈ gs, g.rename f = g) (θ : Substitution) :
    proveAll prove gs (θ.rename f) = (proveAll prove gs θ).map fun a =>
      (a.1.rename f, a.2.map (Proof.rename f)) := by
  induction gs generalizing θ with
  | nil => rfl
  | cons g gs ih =>
    obtain ⟨hg, hgs⟩ := List.forall_mem_cons.1 hgs
    have hfirst := h g θ
    rw [hg] at hfirst
    unfold proveAll
    rw [hfirst, Search.bind_map, Search.map_bind]
    refine congrArg (Search.bind (prove g θ)) (funext fun a => ?_)
    show (proveAll prove gs (a.1.rename f)).map _ = _
    rw [ih hgs, Search.map_map, Search.map_map]
    rfl

/-- A rule that is left alone proves the renamed goal as it proves the goal. -/
theorem tried_rename (hf : Injective f)
    {prove : Pattern → Substitution → Proving (Substitution × Proof)}
    (h : ∀ goal θ, prove (goal.rename f) (θ.rename f) = (prove goal θ).map (renameAnswer f))
    {r : Rule} (hconclusion : r.conclusion.rename f = r.conclusion)
    (hpremises : ∀ p ∈ r.premises, p.rename f = p) (goal : Pattern) (depth : Nat)
    (θ : Substitution) :
    (match Unification.unify (goal.rename f) r.conclusion (θ.rename f) with
      | none => .done
      | some θ => (proveAll prove r.premises θ).map fun (θ, ps) =>
        (θ, byRule r (goal.rename f) depth θ ps) : Proving (Substitution × Proof)) =
      Search.map (renameAnswer f) (match Unification.unify goal r.conclusion θ with
      | none => .done
      | some θ => (proveAll prove r.premises θ).map fun (θ, ps) => (θ, byRule r goal depth θ ps)) := by
  rw [Unification.unify_rename_left hf goal hconclusion]
  cases Unification.unify goal r.conclusion θ with
  | none => rfl
  | some θ =>
    show (proveAll prove r.premises (θ.rename f)).map _ = Search.map _ (Search.map _ _)
    rw [proveAll_rename h hpremises, Search.map_map, Search.map_map]
    refine congrArg (Search.map · _) (funext fun a => ?_)
    exact congrArg (Prod.mk _) (byRule_rename hf r goal depth a.1 a.2)

/-- The search from a renamed goal under renamed bindings gives the renamed answers. -/
theorem prove_rename (hf : Injective f) (hfix : ∀ u, pb.rules.Makes u → f u = u)
    (hp : pb.store.Plain) (levels depth : Nat) (open_ : List String) (goal : Pattern)
    (θ : Substitution) :
    pb.prove levels depth open_ (goal.rename f) (θ.rename f) =
      (pb.prove levels depth open_ goal θ).map (renameAnswer f) := by
  induction levels generalizing depth open_ goal θ with
  | zero =>
    unfold Problem.prove
    refine congrArg (Search.act _) (funext fun s => ?_)
    show (if s.expired then _ else _) = Search.map _ (if s.expired then _ else _)
    split <;> rfl
  | succ levels ih =>
    unfold Problem.prove
    refine congrArg (Search.act _) (funext fun s => ?_)
    show (if s.expired then _ else _) = Search.map _ (if s.expired then _ else _)
    by_cases hs : s.expired = true
    · rw [if_pos hs, if_pos hs]
      rfl
    rw [if_neg hs, if_neg hs]
    dsimp only
    rw [Substitution.apply_rename hf, variantKey_rename hf,
      show Store.lookupsFor ((θ.apply goal).rename f) .empty = _ from
        Store.lookupsFor_rename hf _ .empty]
    refine congrArg (Search.act _) (funext fun s => ?_)
    dsimp only
    rw [facts_rename hf]
    cases pb.facts (θ.apply goal) with
    | error e => rfl
    | ok ms =>
      show Search.append (Search.ofEach _ (ms.map _)) _ = Search.map _ (Search.append _ _)
      rw [Search.map_append, Search.map_ofEach, Search.ofEach_map,
        Search.ofEach_congr fun m _ => byFact_rename hf hp _ θ depth m]
      refine congrArg (Search.append _) (funext fun _ => ?_)
      by_cases hopen : open_.contains (θ.apply goal).variantKey = true
      · rw [if_pos hopen, if_pos hopen]
        rfl
      rw [if_neg hopen, if_neg hopen]
      refine congrArg (Search.act _) (funext fun s => ?_)
      have htag : RuleBase.IsTag (toString s.fresh ++ "_") := .inl ⟨s.fresh, rfl⟩
      rw [RuleBase.rulesFor_rename hf hfix _ htag]
      refine Eq.trans (Search.ofEach_congr fun r hr => ?_) (Search.map_ofEach _ _ _).symm
      obtain ⟨hconclusion, hpremises⟩ := RuleBase.fixed_of_mem_rulesFor hfix htag hr
      exact tried_rename hf (ih (depth + 1) _) hconclusion hpremises _ depth θ

/-! ## The report -/

/-- The goal of a report with its variables renamed. -/
def Subgoal.rename (f : String → String) (g : Subgoal) : Subgoal :=
  { g with goal := g.goal.rename f }

/-- The findings with all variables renamed. -/
def Result.rename (f : String → String) (r : Result) : Result :=
  { r with
    goal := r.goal.rename f
    subgoals := r.subgoals.map (Subgoal.rename f)
    steps := r.steps.map (Proof.rename f)
    bindings := r.bindings.relabel f (Pattern.rename f) }

/-- What was drawn with its variables renamed. -/
def Drawn.rename (f : String → String) (d : Drawn) : Drawn :=
  { d with best := d.best.map fun b => (b.1.rename f, b.2.1.rename f, b.2.2) }

theorem subgoalsOf_rename (p : Proof) :
    subgoalsOf (p.rename f) = (subgoalsOf p).map (Subgoal.rename f) := by
  have hchildren : (p.rename f).children.isEmpty = p.children.isEmpty := by
    cases p with
    | node g c d s cs => exact (congrArg List.isEmpty (Proof.renameList_eq_map cs)).trans List.isEmpty_map
  have hnode (q : Proof) : (⟨(q.rename f).goal, true, (q.rename f).confidence, (q.rename f).depth,
      some (q.rename f).source⟩ : Subgoal) =
        Subgoal.rename f ⟨q.goal, true, q.confidence, q.depth, some q.source⟩ := by
    cases q
    rfl
  unfold subgoalsOf
  dsimp only
  rw [hchildren, Proof.preorder_rename, ← List.map_drop]
  split
  · exact congrArg (fun g => [g]) (hnode p)
  · rw [List.map_map, List.map_map]
    exact List.map_congr_left fun q _ => hnode q

/-- The same proofs are kept, and the drawing stops as early. -/
theorem step_rename (params : Params) (d : Drawn) (a : Substitution × Proof) :
    Drawn.step params (d.rename f) (renameAnswer f a) =
      ((Drawn.step params d a).1.rename f, (Drawn.step params d a).2) := by
  obtain ⟨best, count, capped⟩ := d
  unfold Drawn.step
  rw [show (renameAnswer f a).2.weakest = a.2.weakest from Proof.weakest_rename a.2]
  cases best with
  | none =>
    dsimp only [Drawn.rename, Option.map_none]
    split
    · rfl
    · split <;> rfl
  | some b =>
    dsimp only [Drawn.rename, Option.map_some]
    by_cases hgreater : a.2.weakest > b.2.2
    · simp only [if_pos hgreater]
      split
      · rfl
      · split <;> rfl
    · simp only [if_neg hgreater]
      split
      · rfl
      · split <;> rfl

section Report

variable (hf : Injective f) (hfix : ∀ u, pb.rules.Makes u → f u = u) (hp : pb.store.Plain)
include hf hfix hp

theorem provePremises_rename (key : String) {gs : List Pattern}
    (hgs : ∀ g ∈ gs, g.rename f = g) (θ : Substitution) (s : State) :
    pb.provePremises key gs (θ.rename f) s =
      ((pb.provePremises key gs θ s).1.map fun x =>
        (x.1.map (Pattern.rename f), x.2.map (Proof.rename f)), (pb.provePremises key gs θ s).2) := by
  induction gs generalizing θ s with
  | nil => rfl
  | cons g gs ih =>
    obtain ⟨hg, hgs⟩ := List.forall_mem_cons.1 hgs
    have hprove := prove_rename hf hfix hp pb.params.maxSteps 1 [key] g θ
    have happly := Substitution.apply_rename hf θ g
    rw [hg] at hprove happly
    unfold Problem.provePremises
    rw [hprove, Search.next_map, happly]
    rcases (pb.prove pb.params.maxSteps 1 [key] g θ).next s with ⟨e | (_ | ⟨θ', p⟩), s'⟩
    · rfl
    · rfl
    · dsimp only [Except.map, Option.map_some, renameAnswer]
      rw [ih hgs]
      rcases pb.provePremises key gs θ' s' with ⟨e | ⟨failed, ps⟩, s''⟩
      · rfl
      · rfl

theorem explain_rename (goal : Pattern) (s : State) :
    pb.explain (goal.rename f) s =
      ((pb.explain goal s).1.map fun x =>
        (x.1.map (Subgoal.rename f), x.2.map (Proof.rename f)), (pb.explain goal s).2) := by
  have htag : RuleBase.IsTag "why_" := .inr rfl
  unfold Problem.explain
  dsimp only
  rw [RuleBase.rulesFor_rename hf hfix goal htag, variantKey_rename hf]
  cases hrules : pb.rules.rulesFor goal "why_" with
  | nil => rfl
  | cons r rs =>
    obtain ⟨hconclusion, hpremises⟩ := RuleBase.fixed_of_mem_rulesFor hfix htag
      (hrules ▸ List.mem_cons_self .. : r ∈ pb.rules.rulesFor goal "why_")
    have hunify := Unification.unify_rename_left hf goal hconclusion .empty
    have hempty : Substitution.rename f .empty = .empty := rfl
    rw [hempty] at hunify
    dsimp only
    rw [hunify]
    cases Unification.unify goal r.conclusion .empty with
    | none => rfl
    | some θ =>
      dsimp only [Option.map_some]
      rw [provePremises_rename hf hfix hp _ hpremises]
      rcases pb.provePremises goal.variantKey r.premises θ s with ⟨e | ⟨_ | g, ps⟩, s'⟩ <;> rfl

/-- The report about a renamed goal is the renamed report about the goal. -/
theorem report_rename (goal : Pattern) (s : State) :
    pb.report (goal.rename f) s =
      ((pb.report goal s).1.map (Result.rename f), (pb.report goal s).2) := by
  have hprove : pb.prove (pb.params.maxSteps + 1) 0 [] (goal.rename f) .empty =
      (pb.prove (pb.params.maxSteps + 1) 0 [] goal .empty).map (renameAnswer f) :=
    prove_rename hf hfix hp _ 0 [] goal .empty
  have hdrawn := Search.fold_map (step_rename (f := f) pb.params)
    (pb.prove (pb.params.maxSteps + 1) 0 [] goal .empty) ⟨none, 0, false⟩ s
  rw [← hprove, show Drawn.rename f ⟨none, 0, false⟩ = ⟨none, 0, false⟩ from rfl] at hdrawn
  unfold Problem.report
  dsimp only
  rw [hdrawn]
  rcases (pb.prove (pb.params.maxSteps + 1) 0 [] goal .empty).fold (Drawn.step pb.params)
    ⟨none, 0, false⟩ s with ⟨e | ⟨_ | ⟨θ, p, confidence⟩, count, capped⟩, s'⟩
  · rfl
  · dsimp only [Except.map, Drawn.rename, Option.map_none]
    rw [explain_rename hf hfix hp]
    rcases pb.explain goal { s' with boundReached := s'.boundReached || capped } with
      ⟨e | ⟨subgoals, ps⟩, s''⟩
    · rfl
    · dsimp only [Except.map]
      rw [← Proof.renameList_eq_map, Proof.postorderList_rename]
      rfl
  · dsimp only [Except.map, Drawn.rename, Option.map_some]
    rw [subgoalsOf_rename, Proof.postorder_rename, vars_rename hf, Substitution.resolve_rename hf]
    rfl

end Report

/-- Chaining backward from a renamed goal finds the renamed result, if the renaming leaves the names
alone that are made for rules. -/
theorem chain_rename (hf : Injective f) {rules : RuleBase} (hfix : ∀ u, rules.Makes u → f u = u)
    {store : Store} (hp : store.Plain) (goal : Pattern) (params : Params) (clock : Clock) :
    chain store rules (goal.rename f) params clock =
      Result.rename f <$> chain store rules goal params clock := by
  unfold chain
  rw [report_rename hf hfix hp]
  rcases Problem.report ⟨store, rules, params, ⟨params.timeout, clock⟩⟩ goal .start with
    ⟨e | r, s⟩ <;> rfl

end Backward

end Credence
