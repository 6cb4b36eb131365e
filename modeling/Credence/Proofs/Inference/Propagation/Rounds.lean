import Credence.Proofs.Inference.Propagation.Depth
import Credence.Proofs.Table
/-!
# Rounds

The facts that a round resolves are those whose depth is the number of the round. So
after some rounds the facts that are at most as deep are resolved, in the order of
their depths, each from the probabilities of its dependencies; and a round that would
resolve nothing comes after the deepest fact.
-/

namespace Credence.Propagation

variable {priors resolved resolved' : Table String (Float × Mode)} {graph order : List Fact}
variable {pr : Progress} {f : Fact} {t : String} {k more : Nat}

/-! ## Values -/

theorem product_congr {ds : List String} (h : ∀ d ∈ ds, resolved.get? d = resolved'.get? d) :
    product resolved ds = product resolved' ds := by
  suffices hfold : ∀ x : Float,
      ds.foldl (fun x d => x * ((resolved.get? d).map Prod.fst).getD 1.0) x =
      ds.foldl (fun x d => x * ((resolved'.get? d).map Prod.fst).getD 1.0) x from hfold 1.0
  induction ds with
  | nil => exact fun _ => rfl
  | cons d ds ih =>
    intro x
    obtain ⟨hd, hds⟩ := List.forall_mem_cons.1 h
    rw [List.foldl_cons, List.foldl_cons, hd, ih hds]

/-- A value depends on the probabilities of the dependencies only. -/
theorem combine_congr (h : ∀ d ∈ f.dependencies, resolved.get? d = resolved'.get? d) :
    combine resolved f = combine resolved' f := by
  unfold combine
  rw [product_congr h]

theorem valueOf_congr (h : ∀ d ∈ f.dependencies, resolved.get? d = resolved'.get? d) :
    valueOf priors resolved f = valueOf priors resolved' f := by
  unfold valueOf
  rw [combine_congr h]

theorem isReady_iff :
    isReady resolved f = true ↔ ∀ d ∈ f.dependencies, resolved.contains d = true := by
  unfold isReady
  rw [List.all_eq_true]

/-! ## What the rounds have done -/

/-- Whether the facts of a list come by depth, the least deep first. -/
def ByDepth (graph : List Fact) (fs : List Fact) : Prop :=
  fs.Pairwise fun f g => ∀ m n, HasDepth graph f.statement m → HasDepth graph g.statement n → m ≤ n

/-- The state of a run after some rounds, with the facts that it has resolved in order. -/
structure Stage (priors : Table String (Float × Mode)) (graph : List Fact) (k : Nat)
    (order : List Fact) (pr : Progress) : Prop where
  rounds : pr.rounds = k
  entries : pr.resolved.entries = order.map fun f => (f.statement, valueOf priors pr.resolved f)
  pending : pr.pending = graph.filter fun f => !pr.resolved.contains f.statement
  mem_iff : ∀ f, f ∈ order ↔ f ∈ graph ∧ ∃ n ≤ k, HasDepth graph f.statement n
  distinct : (order.map Fact.statement).Nodup
  byDepth : ByDepth graph order
  reached : k ∈ depths graph

theorem Stage.keys (h : Stage priors graph k order pr) :
    pr.resolved.keys = order.map Fact.statement := by
  unfold Table.keys
  rw [h.entries, List.map_map]
  rfl

/-- The statements that are resolved after some rounds are those of at most that depth. -/
theorem Stage.contains_iff (h : Stage priors graph k order pr) :
    pr.resolved.contains t = true ↔ ∃ n ≤ k, HasDepth graph t n := by
  rw [← Table.mem_keys_iff, h.keys, List.mem_map]
  constructor
  · rintro ⟨f, hf, rfl⟩
    exact ((h.mem_iff f).1 hf).2
  · rintro ⟨n, hn, hdepth⟩
    obtain ⟨f, hf, rfl⟩ := List.mem_map.1 hdepth.mem
    exact ⟨f, (h.mem_iff f).2 ⟨hf, n, hn, hdepth⟩, rfl⟩

theorem Stage.get?_of_mem (h : Stage priors graph k order pr) (hf : f ∈ order) :
    pr.resolved.get? f.statement = some (valueOf priors pr.resolved f) := by
  have hentry : (f.statement, valueOf priors pr.resolved f) ∈ pr.resolved.entries := by
    rw [h.entries]
    exact List.mem_map_of_mem hf
  have hkeys : pr.resolved.keys.Nodup := by
    rw [h.keys]
    exact h.distinct
  exact Table.find_of_mem hkeys hentry

/-- The facts that are ready. -/
def Progress.ready (pr : Progress) : List Fact := pr.pending.filter (isReady pr.resolved)

/-- The facts that are ready after some rounds are those of the next depth. -/
theorem Stage.mem_ready_iff (ha : Accepted graph) (h : Stage priors graph k order pr) :
    f ∈ pr.ready ↔ f ∈ graph ∧ HasDepth graph f.statement (k + 1) := by
  unfold Progress.ready
  rw [List.mem_filter, h.pending, List.mem_filter, isReady_iff, Bool.not_eq_true',
    ← Bool.not_eq_true, h.contains_iff, and_assoc]
  refine and_congr_right fun hf => ⟨fun ⟨hpending, hready⟩ => ?_, fun hdepth => ⟨?_, ?_⟩⟩
  · have hdeps : ∀ d ∈ f.dependencies, ∃ n ≤ k, HasDepth graph d n :=
      fun d hd => h.contains_iff.1 (hready d hd)
    obtain ⟨m, hm⟩ := exists_hasDepth hf fun d hd => (hdeps d hd).imp fun _ hn => hn.2
    have hle : m ≤ k + 1 := hm.le_succ ha hf hdeps
    have hlt : k < m := by
      by_contra hle
      exact hpending ⟨m, by omega, hm⟩
    obtain rfl : m = k + 1 := by omega
    exact hm
  · rintro ⟨n, hn, hdepth'⟩
    have heq := hdepth.unique ha hdepth'
    omega
  · intro d hd
    obtain ⟨m, hm, hdepth'⟩ := hdepth.dependency ha hf hd
    exact h.contains_iff.2 ⟨m, by omega, hdepth'⟩

/-- At the start nothing is resolved. -/
theorem stage_start (priors : Table String (Float × Mode)) (graph : List Fact) :
    Stage priors graph 0 [] ⟨.empty, graph, 0⟩ where
  rounds := rfl
  entries := rfl
  pending := (List.filter_eq_self.2 fun _ _ => rfl).symm
  mem_iff f := by
    refine ⟨nofun, fun ⟨_, n, hn, hdepth⟩ => ?_⟩
    have := hdepth.pos
    omega
  distinct := List.nodup_nil
  byDepth := .nil
  reached := .inl rfl

/-! ## One round -/

/-- The state after one more round. -/
def round (priors : Table String (Float × Mode)) (pr : Progress) : Progress where
  resolved := pr.ready.foldl
    (fun t f => t.insert f.statement (valueOf priors pr.resolved f)) pr.resolved
  pending := pr.pending.filter fun f => !isReady pr.resolved f
  rounds := pr.rounds + 1

theorem propagate_succ (priors : Table String (Float × Mode)) (more : Nat) (pr : Progress) :
    propagate priors (more + 1) pr =
      if pr.ready.isEmpty then pr else propagate priors more (round priors pr) := rfl

variable (ha : Accepted graph) (h : Stage priors graph k order pr)
include ha h

/-- What a round resolves was not resolved before. -/
theorem Stage.distinct_append : ((order ++ pr.ready).map Fact.statement).Nodup := by
  have hready : (pr.ready.map Fact.statement).Nodup := by
    unfold Progress.ready
    rw [h.pending]
    exact ha.distinct.sublist (((List.filter_sublist).trans List.filter_sublist).map _)
  rw [List.map_append]
  refine List.nodup_append.2 ⟨h.distinct, hready, ?_⟩
  rintro _ ht _ hu rfl
  obtain ⟨f, hf, rfl⟩ := List.mem_map.1 ht
  obtain ⟨g, hg, heq⟩ := List.mem_map.1 hu
  obtain ⟨n, hn, hdepth⟩ := ((h.mem_iff f).1 hf).2
  have hnext := ((h.mem_ready_iff ha).1 hg).2
  rw [heq] at hnext
  have := hdepth.unique ha hnext
  omega

theorem Stage.entries_round : (round priors pr).resolved.entries =
    pr.resolved.entries ++ pr.ready.map fun f => (f.statement, valueOf priors pr.resolved f) := by
  refine Table.entries_foldl_insert pr.resolved ?_
  rw [h.keys, ← List.map_append]
  exact h.distinct_append ha

/-- A round leaves what is resolved as it is. -/
theorem Stage.get?_round (ht : pr.resolved.contains t = true) :
    (round priors pr).resolved.get? t = pr.resolved.get? t := by
  show Table.find t (round priors pr).resolved.entries = Table.find t pr.resolved.entries
  rw [h.entries_round ha, Table.find_append]
  obtain ⟨x, hx⟩ := Option.isSome_iff_exists.1 ht
  rw [show Table.find t pr.resolved.entries = some x from hx]
  rfl

theorem Stage.mem_append_ready_iff :
    f ∈ order ++ pr.ready ↔ f ∈ graph ∧ ∃ n ≤ k + 1, HasDepth graph f.statement n := by
  rw [List.mem_append, h.mem_iff, h.mem_ready_iff ha, ← and_or_left]
  refine and_congr_right fun _ => ⟨?_, fun ⟨n, hn, hdepth⟩ => ?_⟩
  · rintro (⟨n, hn, hdepth⟩ | hdepth)
    · exact ⟨n, by omega, hdepth⟩
    · exact ⟨k + 1, Nat.le_refl _, hdepth⟩
  · rcases Nat.lt_or_ge k n with hlt | hle
    · obtain rfl : n = k + 1 := by omega
      exact .inr hdepth
    · exact .inl ⟨n, hle, hdepth⟩

/-- A value is the same after the round in which its fact was resolved. -/
theorem Stage.valueOf_round (hf : f ∈ order ++ pr.ready) :
    valueOf priors (round priors pr).resolved f = valueOf priors pr.resolved f := by
  refine valueOf_congr fun d hd => h.get?_round ha ?_
  obtain ⟨hf, n, hn, hdepth⟩ := (h.mem_append_ready_iff ha).1 hf
  obtain ⟨m, hm, hdepth'⟩ := hdepth.dependency ha hf hd
  exact h.contains_iff.2 ⟨m, by omega, hdepth'⟩

theorem Stage.keys_round :
    (round priors pr).resolved.keys = (order ++ pr.ready).map Fact.statement := by
  unfold Table.keys
  rw [h.entries_round ha, List.map_append, List.map_append, List.map_map]
  exact congrArg (· ++ _) h.keys

/-- A fact is pending after the round if it was before and was not ready. -/
theorem Stage.contains_round_iff (hf : f ∈ graph) :
    (round priors pr).resolved.contains f.statement = true ↔
      pr.resolved.contains f.statement = true ∨ isReady pr.resolved f = true := by
  rw [← Table.mem_keys_iff, h.keys_round ha, List.map_append, List.mem_append, ← h.keys,
    Table.mem_keys_iff]
  by_cases hold : pr.resolved.contains f.statement = true
  · exact iff_of_true (.inl hold) (.inl hold)
  · rw [or_iff_right hold, or_iff_right hold]
    have hpending : f ∈ pr.pending := by
      rw [h.pending, List.mem_filter]
      exact ⟨hf, by simpa using hold⟩
    constructor
    · intro hin
      obtain ⟨g, hg, heq⟩ := List.mem_map.1 hin
      obtain rfl := ha.eq_of_statement ((h.mem_ready_iff ha).1 hg).1 hf heq
      exact (List.mem_filter.1 hg).2
    · intro hready
      exact List.mem_map_of_mem (List.mem_filter.2 ⟨hpending, hready⟩)

/-- A round that resolves something leads to the next stage. -/
theorem Stage.step (hready : pr.ready ≠ []) :
    Stage priors graph (k + 1) (order ++ pr.ready) (round priors pr) where
  rounds := congrArg (· + 1) h.rounds
  entries := by
    rw [h.entries_round ha, h.entries, ← List.map_append]
    refine List.map_congr_left fun f hf => ?_
    rw [h.valueOf_round ha hf]
  pending := by
    show pr.pending.filter _ = _
    rw [h.pending, List.filter_filter]
    refine List.filter_congr fun f hf => ?_
    rw [← Bool.not_or, Bool.or_comm]
    refine congrArg (!·) (Bool.eq_iff_iff.2 ?_)
    rw [Bool.or_eq_true, h.contains_round_iff ha hf]
  mem_iff f := h.mem_append_ready_iff ha
  distinct := h.distinct_append ha
  byDepth := by
    refine List.pairwise_append.2 ⟨h.byDepth, ?_, ?_⟩
    · refine List.pairwise_iff_forall_sublist.2 fun {f g} hsub m n hm hn => ?_
      have hf := (h.mem_ready_iff ha).1 (hsub.subset (by simp : f ∈ [f, g]))
      have hg := (h.mem_ready_iff ha).1 (hsub.subset (by simp : g ∈ [f, g]))
      rw [hm.unique ha hf.2, hn.unique ha hg.2]
    · intro f hf g hg m n hm hn
      obtain ⟨j, hj, hdepth⟩ := ((h.mem_iff f).1 hf).2
      rw [hm.unique ha hdepth, hn.unique ha ((h.mem_ready_iff ha).1 hg).2]
      omega
  reached := by
    obtain ⟨f, hf⟩ := List.exists_mem_of_ne_nil _ hready
    exact .inr ⟨f.statement, ((h.mem_ready_iff ha).1 hf).2⟩

/-! ## All rounds -/

/-- A run goes through as many rounds as there are depths, as far as the bound allows. -/
theorem Stage.propagate (more : Nat) : ∃ k' order',
    Stage priors graph k' order' (propagate priors more pr) ∧ k' ≤ k + more ∧
      (k' = k + more ∨ ∀ t, ¬ HasDepth graph t (k' + 1)) := by
  induction more generalizing k order pr with
  | zero => exact ⟨k, order, h, Nat.le_refl _, .inl rfl⟩
  | succ more ih =>
    rw [propagate_succ]
    by_cases hempty : pr.ready = []
    · rw [if_pos (List.isEmpty_iff.2 hempty)]
      refine ⟨k, order, h, by omega, .inr fun t hdepth => ?_⟩
      obtain ⟨f, hf, rfl⟩ := List.mem_map.1 hdepth.mem
      have hmem := (h.mem_ready_iff ha).2 ⟨hf, hdepth⟩
      rw [hempty] at hmem
      cases hmem
    · rw [if_neg fun hnil => hempty (List.isEmpty_iff.1 hnil)]
      obtain ⟨k', order', hstage, hle, hend⟩ := ih (h.step ha hempty)
      exact ⟨k', order', hstage, by omega, hend.imp_left fun heq => by omega⟩

end Credence.Propagation
