import Credence.Proofs.Inference.Propagation.Rounds
import Credence.Proofs.Store.Scan
/-!
# Which facts are resolved

A run resolves the facts that are at most as deep as the bound on rounds, and no fact
from which a path leads into a cycle. It takes as many rounds as the deepest fact is
deep, as far as the bound allows, and reports derived facts with the least deep first.
-/

namespace Credence.Propagation

variable {s : Store} {priors : Table String (Float × Mode)} {graph order : List Fact}
variable {params : Params} {pr : Progress} {r : Result} {f : Fact} {t : String} {k n : Nat}

/-! ## Results -/

/-- The record of a fact with a probability. -/
def Fact.derived (f : Fact) (x : Float × Mode) : Derived := ⟨f.statement, x.1, f.dependencies⟩

/-- The derived facts that a table names, in its order. -/
def derivedOf (graph : List Fact) (resolved : Table String (Float × Mode)) : List Derived :=
  resolved.entries.filterMap fun e =>
    (graph.find? fun f => f.statement = e.1).bind fun f =>
      if f.isRoot then none else some (f.derived e.2)

/-- What is reported after the last round. -/
def Progress.result (graph : List Fact) (params : Params) (pr : Progress) : Result :=
  ⟨⟨!pr.pending.isEmpty && pr.rounds ≥ params.maxSteps ||
      (derivedOf graph pr.resolved).length > params.maxResults, false, pr.rounds⟩,
    graph.map fun f => (f, pr.resolved.get? f.statement),
    (derivedOf graph pr.resolved).take params.maxResults, pr.pending.map Fact.statement⟩

/-- A run looks up the probabilities of the roots and goes through the rounds. -/
theorem reason_eq (s : Store) (graph : List Fact) (params : Params) :
    reason s graph params = priorsOf s graph >>= fun priors =>
      pure ((propagate priors params.maxSteps ⟨.empty, graph, 0⟩).result graph params) := rfl

/-- The answer of a run from that to the question about the roots. -/
theorem answer_reason (s : Store) (graph : List Fact) (params : Params) (n : Nat) :
    (StateT.run (ExceptT.run (reason s graph params)) n).1 =
      (StateT.run (ExceptT.run (priorsOf s graph)) n).1.map fun priors =>
        (propagate priors params.maxSteps ⟨.empty, graph, 0⟩).result graph params := by
  rw [reason_eq, Store.run_question_bind]
  obtain ⟨e | priors, n'⟩ := StateT.run (ExceptT.run (priorsOf s graph)) n <;> rfl

/-- The probabilities of the facts that are resolved. -/
def Result.final (r : Result) : Table String (Float × Mode) :=
  ⟨r.facts.filterMap fun x => x.2.map fun v => (x.1.statement, v)⟩

/-- The facts with dependencies that are resolved, in the order in which they were given. -/
def Result.resolvedDerived (r : Result) : List (Fact × Float × Mode) :=
  r.facts.filterMap fun x => x.2.bind fun v => if x.1.isRoot then none else some (x.1, v)

/-- What propagation finds: the facts of at most some depth, in as many rounds as there are depths,
each from the final probabilities of its dependencies. -/
structure Layered (graph : List Fact) (params : Params) (r : Result) : Prop where
  defined : ∀ f ∈ graph, (∃! n, HasDepth graph f.statement n) ↔ ¬ MeetsCycle graph f.statement
  facts : r.facts.map Prod.fst = graph
  resolved : ∀ f x, (f, x) ∈ r.facts →
    (x.isSome = true ↔ ∃ n ≤ params.maxSteps, HasDepth graph f.statement n)
  rounds : ∃ m, IsGreatest (depths graph) m ∧ r.outcome.stepsTaken = min params.maxSteps m
  unresolved : r.unresolved = (r.facts.filter fun x => x.2.isNone).map fun x => x.1.statement
  combined : ∀ f v, (f, some v) ∈ r.facts → f.isRoot = false →
    (∀ d ∈ f.dependencies, r.final.contains d = true) ∧ v = combine r.final f
  derived : ∃ xs : List (Fact × Float × Mode), xs.Perm r.resolvedDerived ∧
    ByDepth graph (xs.map Prod.fst) ∧
    r.derived = (xs.map fun x => x.1.derived x.2).take params.maxResults

/-! ## The last stage -/

theorem Stage.exists_of_get? (h : Stage priors graph k order pr) {v : Float × Mode}
    (hv : pr.resolved.get? t = some v) :
    ∃ f ∈ order, f.statement = t ∧ v = valueOf priors pr.resolved f := by
  have hin : pr.resolved.contains t = true := by
    unfold Table.contains
    rw [hv]
    rfl
  rw [← Table.mem_keys_iff, h.keys] at hin
  obtain ⟨f, hf, rfl⟩ := List.mem_map.1 hin
  rw [h.get?_of_mem hf] at hv
  exact ⟨f, hf, rfl, (Option.some.inj hv).symm⟩

/-- The final probabilities are those of the last stage. -/
theorem Stage.get?_final (h : Stage priors graph k order pr) (params : Params) (t : String) :
    (pr.result graph params).final.get? t = pr.resolved.get? t := by
  show Table.find t ((graph.map fun f => (f, pr.resolved.get? f.statement)).filterMap _) = _
  rw [List.filterMap_map]
  refine (Table.find_filterMap_get? Fact.statement pr.resolved graph t).trans ?_
  split
  · rfl
  · next hout =>
    cases hv : pr.resolved.get? t with
    | none => rfl
    | some v =>
      obtain ⟨f, hf, rfl, _⟩ := h.exists_of_get? hv
      exact absurd (List.mem_map_of_mem ((h.mem_iff f).1 hf).1) hout

section

variable (ha : Accepted graph) (h : Stage priors graph k order pr)
include ha h

/-- The resolved facts come in the order of the rounds instead of the given one. -/
theorem Stage.order_perm :
    order.Perm (graph.filter fun f => pr.resolved.contains f.statement) := by
  refine (List.perm_ext_iff_of_nodup h.distinct.of_map (ha.distinct.of_map.filter _)).2 fun f => ?_
  rw [List.mem_filter, h.contains_iff, h.mem_iff]

/-- A statement of the graph leads back to its fact. -/
theorem Stage.find?_statement (hf : f ∈ order) :
    graph.find? (fun g => g.statement = f.statement) = some f := by
  have hin := ((h.mem_iff f).1 hf).1
  cases hg : graph.find? (fun g => g.statement = f.statement) with
  | none => simpa using List.find?_eq_none.1 hg f hin
  | some g =>
    have heq : g.statement = f.statement := by simpa using List.find?_some hg
    rw [ha.eq_of_statement (List.mem_of_find?_eq_some hg) hin heq]

/-- The derived facts that are reported, before the bound on results. -/
theorem Stage.derivedOf_eq : derivedOf graph pr.resolved =
    (order.filter fun f => !f.isRoot).map fun f => f.derived (valueOf priors pr.resolved f) := by
  unfold derivedOf
  rw [h.entries, List.filterMap_map, ← List.filterMap_eq_map, List.filterMap_filter]
  refine List.filterMap_congr fun f hf => ?_
  show (graph.find? fun g => g.statement = f.statement).bind _ = _
  rw [h.find?_statement ha hf, Option.bind_some]
  by_cases hroot : f.isRoot = true <;> simp [hroot]

theorem Stage.resolvedDerived_eq (params : Params) : (pr.result graph params).resolvedDerived =
    ((graph.filter fun f => pr.resolved.contains f.statement).filter fun f => !f.isRoot).map
      fun f => (f, valueOf priors pr.resolved f) := by
  show (graph.map fun f => (f, pr.resolved.get? f.statement)).filterMap _ = _
  rw [List.filterMap_map, ← List.filterMap_eq_map, List.filterMap_filter, List.filterMap_filter]
  refine List.filterMap_congr fun f hf => ?_
  show (pr.resolved.get? f.statement).bind _ = _
  unfold Table.contains
  cases hv : pr.resolved.get? f.statement with
  | none => rfl
  | some v =>
    obtain ⟨g, hg, heq, rfl⟩ := h.exists_of_get? hv
    obtain rfl := ha.eq_of_statement ((h.mem_iff g).1 hg).1 hf heq
    cases g.isRoot <;> rfl

omit ha in
/-- A run that has gone as far as it may has gone through as many rounds as there are depths. -/
theorem Stage.rounds_eq (hend : k = params.maxSteps ∨ ∀ t, ¬ HasDepth graph t (k + 1)) {m : Nat}
    (hm : IsGreatest (depths graph) m) (hle : k ≤ params.maxSteps) :
    pr.rounds = min params.maxSteps m := by
  have hreached : k ≤ m := hm.2 h.reached
  rw [h.rounds]
  rcases hend with rfl | hnone
  · exact (Nat.min_eq_left hreached).symm
  · have hdeep : m ≤ k := by
      rcases hm.1 with rfl | ⟨t, ht⟩
      · exact Nat.zero_le k
      · exact ht.le_of_none hnone
    omega

/-- A derived fact has what its dependencies come to in the end. -/
theorem Stage.combined (params : Params) {v : Float × Mode} (hf : f ∈ graph)
    (hv : pr.resolved.get? f.statement = some v) (hroot : f.isRoot = false) :
    (∀ d ∈ f.dependencies, (pr.result graph params).final.contains d = true) ∧
      v = combine (pr.result graph params).final f := by
  obtain ⟨g, hg, hst, rfl⟩ := h.exists_of_get? hv
  obtain rfl := ha.eq_of_statement ((h.mem_iff g).1 hg).1 hf hst
  obtain ⟨n, hn, hdepth⟩ := ((h.mem_iff g).1 hg).2
  constructor
  · intro d hd
    obtain ⟨m, hm, hdepth'⟩ := hdepth.dependency ha hf hd
    unfold Table.contains
    rw [h.get?_final]
    exact h.contains_iff.2 ⟨m, by omega, hdepth'⟩
  · rw [valueOf, hroot]
    exact combine_congr fun d _ => (h.get?_final params d).symm

/-- A run that has gone as far as it may has found what the depths say. -/
theorem Stage.layered (hle : k ≤ params.maxSteps)
    (hend : k = params.maxSteps ∨ ∀ t, ¬ HasDepth graph t (k + 1)) :
    Layered graph params (pr.result graph params) where
  defined f hf := by
    rw [← exists_hasDepth_iff ha (List.mem_map_of_mem hf)]
    exact ⟨ExistsUnique.exists, fun ⟨n, hn⟩ => ⟨n, hn, fun m hm => hm.unique ha hn⟩⟩
  facts := by
    show (graph.map fun f => (f, pr.resolved.get? f.statement)).map Prod.fst = graph
    rw [List.map_map]
    exact List.map_id graph
  resolved f x hfx := by
    obtain ⟨g, hg, heq⟩ := List.mem_map.1 hfx
    cases heq
    refine h.contains_iff.trans ⟨fun ⟨n, hn, hdepth⟩ => ⟨n, by omega, hdepth⟩, ?_⟩
    intro ⟨n, hn, hdepth⟩
    refine ⟨n, ?_, hdepth⟩
    rcases hend with rfl | hnone
    · exact hn
    · exact hdepth.le_of_none hnone
  rounds := by
    obtain ⟨m, hm⟩ := exists_deepest ha
    exact ⟨m, hm, h.rounds_eq hend hm hle⟩
  unresolved := by
    show pr.pending.map Fact.statement = _
    rw [h.pending]
    show _ = ((graph.map fun f => (f, pr.resolved.get? f.statement)).filter _).map _
    rw [List.filter_map, List.map_map]
    refine congrArg (List.map Fact.statement) (List.filter_congr fun f _ => ?_)
    show (!(pr.resolved.get? f.statement).isSome) = (pr.resolved.get? f.statement).isNone
    exact Option.not_isSome _
  combined f v hfv hroot := by
    obtain ⟨g, hg, heq⟩ := List.mem_map.1 hfv
    obtain ⟨rfl, hv⟩ := Prod.mk.inj heq
    exact h.combined ha params hg hv hroot
  derived := by
    refine ⟨(order.filter fun f => !f.isRoot).map fun f => (f, valueOf priors pr.resolved f),
      ?_, ?_, ?_⟩
    · rw [h.resolvedDerived_eq ha]
      exact ((h.order_perm ha).filter _).map _
    · rw [List.map_map]
      exact (List.map_id _).symm ▸ h.byDepth.sublist List.filter_sublist
    · rw [List.map_map]
      exact congrArg _ (h.derivedOf_eq ha)

end

/-- Propagation over an accepted graph resolves exactly the facts of at most as great a depth as
the bound on rounds, in as many rounds, and combines each from its dependencies. -/
theorem reason_layered {fs : List Fact} (hgraph : checkGraph fs = .ok graph)
    (h : (StateT.run (ExceptT.run (reason s graph params)) n).1 = .ok r) :
    Layered graph params r := by
  obtain ⟨rfl, ha⟩ := checkGraph_eq_ok_iff.1 hgraph
  rw [answer_reason] at h
  obtain ⟨priors, _, rfl⟩ := map_eq_ok h
  obtain ⟨k, order, hstage, hle, hend⟩ := (stage_start priors graph).propagate ha params.maxSteps
  rw [Nat.zero_add] at hle hend
  exact hstage.layered ha hle hend

/-- A fact given before those it depends on, and a cycle with a fact that depends on it. -/
theorem reason_layered_cyclic :
    let graph : List Fact := [⟨"c", none, ["b", "a", "b"], some ⟨0.9, 0.1⟩⟩,
      ⟨"x", none, ["y"], none⟩,
      ⟨"a", some 0.5, [], none⟩, ⟨"y", none, ["x"], none⟩, ⟨"b", some 0.8, ["a"], none⟩,
      ⟨"z", none, ["a", "x"], none⟩]
    ∃ r, checkGraph graph = .ok graph ∧
      (StateT.run (ExceptT.run (reason Store.empty graph Params.default)) 0).1 = .ok r ∧
      r.outcome = ⟨false, false, 3⟩ ∧ r.unresolved = ["x", "y", "z"] ∧
      r.derived.map Derived.statement = ["b", "c"] ∧ Layered graph Params.default r := by
  intro graph
  have hgraph : checkGraph graph = .ok graph := by
    refine checkGraph_eq_ok_iff.2 ⟨rfl, by decide, by decide, ?_⟩
    simp [graph, Fact.isRoot]
  have hrun : (StateT.run (ExceptT.run (reason Store.empty graph Params.default)) 0).1 = .ok _ :=
    answer_reason Store.empty graph Params.default 0
  exact ⟨_, hgraph, hrun, by decide +kernel, by decide +kernel, by decide +kernel,
    reason_layered hgraph hrun⟩

end Credence.Propagation
