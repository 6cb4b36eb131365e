import Credence.Proofs.Inference.Propagation.Resolution
/-!
# The order of facts

Two lists of the same facts are accepted together, their roots have the same
probabilities, and their facts have the same depths. So both runs resolve the same
facts in as many rounds, each with the same probability, whatever order the facts
were given in.
-/

namespace Credence.Propagation

variable {s : Store} {params : Params} {graph graph' order order' : List Fact}
variable {priors priors' : Table String (Float × Mode)} {pr pr' : Progress} {f : Fact} {k k' : Nat}

/-! ## Roots -/

/-- The answer to the question about one root. -/
def prior (s : Store) (f : Fact) : Except Error (Float × Mode) :=
  (StateT.run (ExceptT.run (priorOf s f)) 0).1

/-- The answer is the same however many lookups were counted before. -/
theorem answer_priorOf (s : Store) (f : Fact) (n : Nat) :
    (StateT.run (ExceptT.run (priorOf s f)) n).1 = prior s f := by
  have hsteady : Reading.Steady (priorOf s f) := by
    unfold priorOf
    split
    · exact Reading.steady_of_except (.ok _)
    · refine (Reading.steady_of_except _).bind fun p => ?_
      refine (Reading.steady_lookup s p).bind fun found => ?_
      split
      · exact Reading.steady_of_except (.ok _)
      · exact Reading.steady_of_except (.error _)
  exact hsteady n 0

/-- The answers to the questions about all roots, in the order of the facts. -/
def priorList (s : Store) (fs : List Fact) : Except Error (List (String × Float × Mode)) :=
  (fs.filter Fact.isRoot).mapM fun f => (prior s f).map fun x => (f.statement, x)

theorem answer_priorsOf (s : Store) (fs : List Fact) (n : Nat) :
    (StateT.run (ExceptT.run (priorsOf s fs)) n).1 = (priorList s fs).map Table.mk := by
  induction fs generalizing n with
  | nil => rfl
  | cons f fs ih =>
    unfold priorsOf
    by_cases hf : f.isRoot = true
    · have hcons : priorList s (f :: fs) = prior s f >>= fun x =>
          priorList s fs >>= fun rest => pure ((f.statement, x) :: rest) := by
        unfold priorList
        rw [List.filter_cons_of_pos hf, List.mapM_cons]
        cases prior s f <;> rfl
      rw [hcons, if_neg (by simp [hf]), Store.run_question_bind]
      have hanswer := answer_priorOf s f n
      generalize StateT.run (ExceptT.run (priorOf s f)) n = answer at hanswer ⊢
      obtain ⟨x, n'⟩ := answer
      dsimp only at hanswer ⊢
      subst hanswer
      cases prior s f with
      | error e => rfl
      | ok x =>
        have hrest := ih n'
        show (StateT.run (ExceptT.run (priorsOf s fs >>= _)) n').1 = _
        rw [Store.run_question_bind]
        generalize StateT.run (ExceptT.run (priorsOf s fs)) n' = answer at hrest ⊢
        obtain ⟨x, n''⟩ := answer
        dsimp only at hrest ⊢
        subst hrest
        cases priorList s fs <;> rfl
    · have hskip : priorList s (f :: fs) = priorList s fs := by
        unfold priorList
        rw [List.filter_cons_of_neg hf]
      rw [hskip, if_pos (by simpa using hf)]
      exact ih n

theorem keys_priorList {es : List (String × Float × Mode)} (h : priorList s graph = .ok es) :
    es.map Prod.fst = (graph.filter Fact.isRoot).map Fact.statement := by
  unfold priorList at h
  generalize graph.filter Fact.isRoot = roots at h
  induction mapM_eq_ok_iff.1 h with
  | nil => rfl
  | cons hstep hrest ih =>
    obtain ⟨x, _, rfl⟩ := map_eq_ok hstep
    rw [List.map_cons, List.map_cons, ih (mapM_eq_ok_iff.2 hrest)]

/-- A root has the probability that is found for it alone. -/
theorem get?_priorList (ha : Accepted graph) {es : List (String × Float × Mode)}
    (h : priorList s graph = .ok es) (hf : f ∈ graph) (hroot : f.isRoot = true) :
    (prior s f).toOption = (Table.mk es).get? f.statement := by
  obtain ⟨e, he, hstep⟩ := exists_of_mem_mapM h (List.mem_filter.2 ⟨hf, hroot⟩)
  obtain ⟨x, hx, rfl⟩ := map_eq_ok hstep
  have hkeys : (es.map Prod.fst).Nodup := by
    rw [keys_priorList h]
    exact ha.distinct.sublist (List.filter_sublist.map _)
  rw [hx]
  exact (Table.find_of_mem hkeys he).symm

theorem exists_priorList_of_perm (hp : graph.Perm graph') {es : List (String × Float × Mode)}
    (h : priorList s graph = .ok es) : ∃ es', priorList s graph' = .ok es' := by
  refine exists_mapM_ok fun f hf => ?_
  obtain ⟨e, _, hstep⟩ := exists_of_mem_mapM h ((hp.filter _).symm.subset hf)
  exact ⟨e, hstep⟩

/-! ## Two runs -/

section

variable (hp : graph.Perm graph')
  (hpriors : ∀ f ∈ graph, f.isRoot = true → priors.get? f.statement = priors'.get? f.statement)
  (h : Stage priors graph k order pr) (h' : Stage priors' graph' k order' pr')
include hp hpriors h h'

/-- After as many rounds two runs have resolved the same statements with the same probabilities. -/
theorem Stage.get?_eq (t : String) : pr'.resolved.get? t = pr.resolved.get? t := by
  have hcontains : ∀ u, pr'.resolved.contains u = true ↔ pr.resolved.contains u = true := by
    intro u
    rw [h.contains_iff, h'.contains_iff]
    simp only [hasDepth_perm hp]
  by_cases hin : pr.resolved.contains t = true
  · obtain ⟨n, hn, hdepth⟩ := h.contains_iff.1 hin
    clear hin
    induction hdepth with
    | @fact f hf depth hdeps ih =>
      have hin : f ∈ order := (h.mem_iff f).2 ⟨hf, _, hn, .fact hf depth hdeps⟩
      have hin' : f ∈ order' := (h'.mem_iff f).2
        ⟨hp.subset hf, _, hn, (hasDepth_perm hp).1 (.fact hf depth hdeps)⟩
      rw [h.get?_of_mem hin, h'.get?_of_mem hin']
      unfold valueOf
      by_cases hroot : f.isRoot = true
      · rw [if_pos hroot, if_pos hroot, hpriors f hf hroot]
      · rw [if_neg hroot, if_neg hroot]
        refine congrArg some (combine_congr fun d hd => ih d hd ?_)
        have hle := le_greatest (List.mem_map_of_mem (f := depth) hd)
        omega
  · have hnone : ∀ table : Table String (Float × Mode), ¬ table.contains t = true →
        table.get? t = none := fun table hout => by simpa [Table.contains] using hout
    rw [hnone _ hin, hnone _ (mt (hcontains t).1 hin)]

theorem Stage.contains_eq (t : String) : pr'.resolved.contains t = pr.resolved.contains t := by
  unfold Table.contains
  rw [h.get?_eq hp hpriors h']

/-- Two runs report as many derived facts. -/
theorem Stage.length_derivedOf (ha : Accepted graph) :
    (derivedOf graph' pr'.resolved).length = (derivedOf graph pr.resolved).length := by
  have hsame : order'.Perm order := calc
    order'.Perm (graph'.filter fun f => pr'.resolved.contains f.statement) :=
      h'.order_perm (ha.of_perm hp)
    _ |>.Perm (graph.filter fun f => pr.resolved.contains f.statement) := by
      simp only [h.contains_eq hp hpriors h']
      exact hp.symm.filter _
    _ |>.Perm order := (h.order_perm ha).symm
  rw [h.derivedOf_eq ha, h'.derivedOf_eq (ha.of_perm hp), List.length_map, List.length_map]
  exact (hsame.filter _).length_eq

end

/-- The findings of two runs over the same facts in different orders: each fact has the same
probability from the same source, or none, and the runs end alike. -/
structure Rearranged (r r' : Result) : Prop where
  facts : r'.facts.Perm r.facts
  unresolved : r'.unresolved.Perm r.unresolved
  outcome : r'.outcome = r.outcome

theorem Stage.rearranged (ha : Accepted graph) (hp : graph.Perm graph')
    (hpriors : ∀ f ∈ graph, f.isRoot = true → priors.get? f.statement = priors'.get? f.statement)
    (h : Stage priors graph k order pr) (h' : Stage priors' graph' k order' pr') :
    Rearranged (pr.result graph params) (pr'.result graph' params) := by
  have hpending : pr'.pending.Perm pr.pending := by
    rw [h.pending, h'.pending]
    simp only [h.contains_eq hp hpriors h']
    exact hp.symm.filter _
  refine ⟨?_, hpending.map _, ?_⟩
  · show (graph'.map fun f => (f, pr'.resolved.get? f.statement)).Perm (graph.map _)
    simp only [h.get?_eq hp hpriors h']
    exact hp.symm.map _
  · unfold Progress.result
    dsimp only
    rw [hpending.isEmpty_eq, h.rounds, h'.rounds, h.length_derivedOf hp hpriors h' ha]

/-- What a list of facts comes to over a store. -/
def resolve (s : Store) (fs : List Fact) (params : Params) : Reading Result := do
  let graph ← (checkGraph fs : Except Error (List Fact))
  reason s graph params

theorem answer_resolve_of_accepted (ha : Accepted graph) (s : Store) (params : Params) (n : Nat) :
    (StateT.run (ExceptT.run (resolve s graph params)) n).1 = (priorList s graph).map fun es =>
      (propagate ⟨es⟩ params.maxSteps ⟨.empty, graph, 0⟩).result graph params := by
  unfold resolve
  rw [checkGraph_eq_ok_iff.2 ⟨rfl, ha⟩]
  show (StateT.run (ExceptT.run (reason s graph params)) n).1 = _
  rw [answer_reason, answer_priorsOf]
  cases priorList s graph <;> rfl

theorem answer_resolve_of_refused (hna : ¬ Accepted graph) (s : Store) (params : Params) :
    ∃ e, ∀ n, (StateT.run (ExceptT.run (resolve s graph params)) n).1 = .error e := by
  unfold resolve
  cases hcheck : checkGraph graph with
  | error e => exact ⟨e, fun _ => rfl⟩
  | ok fs => exact absurd (checkGraph_eq_ok_iff.1 hcheck).2 hna

theorem rearranged_of_perm (ha : Accepted graph) (hp : graph.Perm graph') (params : Params)
    {es es' : List (String × Float × Mode)} (h : priorList s graph = .ok es)
    (h' : priorList s graph' = .ok es') :
    Rearranged ((propagate ⟨es⟩ params.maxSteps ⟨.empty, graph, 0⟩).result graph params)
      ((propagate ⟨es'⟩ params.maxSteps ⟨.empty, graph', 0⟩).result graph' params) := by
  have ha' := ha.of_perm hp
  have hpriors : ∀ f ∈ graph, f.isRoot = true →
      (Table.mk es).get? f.statement = (Table.mk es').get? f.statement := by
    intro f hf hroot
    rw [← get?_priorList ha h hf hroot, ← get?_priorList ha' h' (hp.subset hf) hroot]
  obtain ⟨k, order, hstage, hle, hend⟩ := (stage_start ⟨es⟩ graph).propagate ha params.maxSteps
  obtain ⟨k', order', hstage', hle', hend'⟩ :=
    (stage_start ⟨es'⟩ graph').propagate ha' params.maxSteps
  rw [Nat.zero_add] at hle hend hle' hend'
  -- Both runs go as deep as the facts are.
  have hlayered : Layered graph params _ := hstage.layered ha hle hend
  have hlayered' : Layered graph' params _ := hstage'.layered ha' hle' hend'
  obtain ⟨m, hm, hrounds⟩ := hlayered.rounds
  obtain ⟨m', hm', hrounds'⟩ := hlayered'.rounds
  have hdepths : depths graph' = depths graph := by
    unfold depths
    simp only [hasDepth_perm hp]
  rw [hdepths] at hm'
  obtain rfl : m = m' := Nat.le_antisymm (hm'.2 hm.1) (hm.2 hm'.1)
  obtain rfl : k = k' := by
    rw [← hstage.rounds, ← hstage'.rounds]
    exact hrounds.trans hrounds'.symm
  exact hstage.rearranged ha hp hpriors hstage'

/-- Propagation over the same facts in another order fails as well, or gives each fact the same
probability from the same source and ends alike. -/
theorem resolve_perm {fs fs' : List Fact} (h : fs.Perm fs') (s : Store) (params : Params)
    (n n' : Nat) :
    Together Rearranged (StateT.run (ExceptT.run (resolve s fs params)) n).1
      (StateT.run (ExceptT.run (resolve s fs' params)) n').1 := by
  by_cases ha : Accepted fs
  · rw [answer_resolve_of_accepted ha, answer_resolve_of_accepted (ha.of_perm h)]
    cases hes : priorList s fs with
    | error e =>
      cases hes' : priorList s fs' with
      | error e' => exact .error e e'
      | ok es' =>
        obtain ⟨es, hok⟩ := exists_priorList_of_perm h.symm hes'
        rw [hes] at hok
        cases hok
    | ok es =>
      obtain ⟨es', hes'⟩ := exists_priorList_of_perm h hes
      rw [hes']
      exact .ok (rearranged_of_perm ha h params hes hes')
  · obtain ⟨e, he⟩ := answer_resolve_of_refused ha s params
    obtain ⟨e', he'⟩ := answer_resolve_of_refused (fun ha' => ha (ha'.of_perm h.symm)) s params
    rw [he, he']
    exact .error e e'

/-- Which derived facts a bound on results leaves out does depend on the order. -/
theorem resolve_perm_capped :
    let a : Fact := ⟨"a", some 0.25, [], none⟩
    let b : Fact := ⟨"b", some 0.5, ["a"], none⟩
    let c : Fact := ⟨"c", none, ["a", "a"], some ⟨0.9, 0.1⟩⟩
    let params : Params := { Params.default with maxResults := 1 }
    ∃ r r', [b, a, c].Perm [c, b, a] ∧
      (StateT.run (ExceptT.run (resolve Store.empty [b, a, c] params)) 0).1 = .ok r ∧
      (StateT.run (ExceptT.run (resolve Store.empty [c, b, a] params)) 7).1 = .ok r' ∧
      r.derived.map Derived.statement = ["b"] ∧ r'.derived.map Derived.statement = ["c"] ∧
      Rearranged r r' := by
  intro a b c params
  have hperm : [b, a, c].Perm [c, b, a] := List.perm_append_singleton c [b, a]
  have ha : Accepted [b, a, c] := ⟨by decide, by decide, by simp [a, b, c, Fact.isRoot]⟩
  have hrun : (StateT.run (ExceptT.run (resolve Store.empty [b, a, c] params)) 0).1 = .ok _ :=
    answer_resolve_of_accepted ha Store.empty params 0
  have hrun' : (StateT.run (ExceptT.run (resolve Store.empty [c, b, a] params)) 7).1 = .ok _ :=
    answer_resolve_of_accepted (ha.of_perm hperm) Store.empty params 7
  have hsame := resolve_perm hperm Store.empty params 0 7
  rw [hrun, hrun'] at hsame
  exact ⟨_, _, hperm, hrun, hrun', by decide +kernel, by decide +kernel, hsame.of_ok⟩

end Credence.Propagation
