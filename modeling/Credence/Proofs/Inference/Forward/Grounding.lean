import Credence.Proofs.Inference.Forward.Saturation
/-!
# Ground conclusions

In a store without variable nodes every atom is a ground tree. The matches and solutions
of patterns bind just the variables of the patterns, and instantiating a pattern with
them gives the tree of its atom. A rule binds all variables of its conclusion in its
premises, so each of its firings has a ground conclusion.

Storing a ground conclusion that names no variable node leaves a store of this kind. So
no iteration of a run, under whatever bounds, meets a conclusion that it would have to
pass over because of a variable.
-/

namespace Credence

open Pattern

namespace Store

variable {s : Store} {ps : List Pattern} {b : Bindings} {sols : List Solution} {sol : Solution}

/-- Whether a pattern under bindings is the tree of an atom. -/
def ReadsAs (s : Store) (b : Bindings) (p : Pattern) (id : AtomId) : Prop :=
  ∃ t, s.instantiate p b = .ok t ∧ s.toPattern id = .ok t

/-- What bindings say as trees when they make patterns denote atoms. -/
structure AsTrees (s : Store) (ps : List Pattern) (b : Bindings) (ids : List AtomId) : Prop where
  once : b.keys.Nodup
  domain : ∀ v, v ∈ b.keys ↔ v ∈ varsOf ps
  trees : (∀ p ∈ ps, p.WellKinded) → List.Forall₂ (s.ReadsAs b) ps ids
  ground : ∀ c : Pattern, (∀ v ∈ c.occurrences, v ∈ occurrencesList ps) →
    ∃ t, s.instantiate c b = .ok t ∧ t.isGround = true

theorem instantiate_solution (h : s.Inv) (hp : s.Plain) (hrun : s.solutions ps .empty = .ok sols)
    (hsol : sol ∈ sols) (p : Pattern) :
    s.instantiate p sol.bindings = .ok (p.subst (s.treesOf sol.bindings)) := by
  obtain ⟨q, hq⟩ := exists_instantiate h (readable_of_plain hp) hrun hsol p
  have hholds := (solved_of_solutions h (holds_empty s) hrun hsol).holds
  rw [hq, eq_of_instantiate h hp hholds hq]

/-- Every solution of patterns is a reading of them as trees. -/
theorem asTrees_of_solutions (h : s.Inv) (hp : s.Plain) (hrun : s.solutions ps .empty = .ok sols)
    (hsol : sol ∈ sols) : s.AsTrees ps sol.bindings sol.atomIds := by
  have hsolved := solved_of_solutions h (holds_empty s) hrun hsol
  obtain ⟨honce, hdomain⟩ := domain_of_solutions h (holds_empty s) hrun hsol List.nodup_nil
  have hbound : ∀ v, sol.bindings.contains v = true ↔ v ∈ occurrencesList ps := by
    intro v
    rw [hdomain v]
    exact or_iff_right (by simp [Table.contains])
  refine ⟨honce, fun v => ?_, fun hk => ?_, fun c hc => ?_⟩
  · rw [Table.mem_keys_iff, hbound]
    exact (mem_distinct v _).symm
  · have htrees := hsolved.subst_eq h hp hk
    have hall : List.Forall₂ Eq (ps.map (subst (s.treesOf sol.bindings)))
        (sol.atomIds.map s.treeOf) := htrees ▸ List.forall₂_same.2 fun _ _ => rfl
    rw [List.forall₂_map_left_iff, List.forall₂_map_right_iff] at hall
    obtain ⟨hlen, heach⟩ := List.forall₂_iff_zip.1 hall
    refine List.forall₂_iff_zip.2 ⟨hlen, fun {p id} hmem => ?_⟩
    refine ⟨_, instantiate_solution h hp hrun hsol p, ?_⟩
    rw [heach hmem]
    exact toPattern_eq_treeOf h hp (hsolved.stored id (List.of_mem_zip hmem).2)
  · refine ⟨_, instantiate_solution h hp hrun hsol c, isGround_subst_iff.2 fun v hv => ?_⟩
    -- The variable is bound, and what it is bound to is a stored atom.
    obtain ⟨id, hid⟩ := Option.isSome_iff_exists.1 ((hbound v).2 (hc v hv))
    unfold treesOf
    rw [hid]
    exact isGround_treeOf h hp (contains_iff.1 (hsolved.holds v id hid))

/-- A match of a pattern is a solution of it alone. -/
theorem exists_solution_of_match (h : s.Inv) {p : Pattern} {ms : List Match}
    (hrun : s.matchesOf p = .ok ms) {m : Match} (hm : m ∈ ms) :
    ∃ sols, s.solutions [p] .empty = .ok sols ∧ ⟨m.bindings, [m.atomId]⟩ ∈ sols := by
  obtain ⟨sols, hsols⟩ := solutions_ok h [p] (holds_empty s)
  refine ⟨sols, hsols, (mem_solutions_cons h (holds_empty s) hsols).2 ?_⟩
  have hscan := matchesFrom_eq_scan h p (holds_empty s)
  unfold matchesOf at hrun
  rw [hscan] at hrun
  cases hrun
  exact ⟨m, hm, _, rfl, ⟨m.bindings, []⟩, List.mem_singleton_self _, rfl⟩

end Store

namespace Forward

open Store

variable {s seen : Store} {rules : List Rule} {params : Params} {iteration : Nat} {run : Run}

/-- Facts that the rules see in some iteration of a run, whatever number of iterations and time it
is given. -/
inductive Sees (rules : List Rule) (params : Params) : Nat → Run → Store → Prop
  | now (iteration : Nat) (run : Run) : Sees rules params iteration run run.facts
  | later {iteration : Nat} {run : Run} {round : Round} {facts : Store} {ks : List Conclusion}
    {truncated : Bool} {seen : Store}
    (hround : fireAll run.facts rules params iteration ⟨run.steps, .empty, run.rejected⟩ =
      .ok round)
    (haccept : accept params.maxResults round.pending.values run.facts run.conclusions =
      .ok (facts, ks, truncated))
    (hseen : Sees rules params (iteration + 1) ⟨facts, round.steps, ks, round.rejected⟩ seen) :
    Sees rules params iteration run seen

theorem accept_keeps_plain {es : List (Pattern × Conclusion)} {n : Nat} {facts facts' : Store}
    {ks ks' : List Conclusion} {truncated : Bool} (hinv : facts.Inv) (hp : facts.Plain)
    (hes : ∀ e ∈ es, Printable e) (hrun : accept n es facts ks = .ok (facts', ks', truncated)) :
    facts'.Inv ∧ facts'.Plain := by
  induction es generalizing facts ks with
  | nil =>
    cases hrun
    exact ⟨hinv, hp⟩
  | cons e es ih =>
    obtain ⟨p, k⟩ := e
    obtain ⟨he, hes⟩ := List.forall_mem_cons.1 hes
    unfold accept at hrun
    split at hrun
    · cases hrun
      exact ⟨hinv, hp⟩
    · split at hrun
      · next hassert =>
        have hasserted := asserted_of_run he.grammatical he.valid hinv hp hassert
        exact ih hasserted.inv hasserted.plain hes hrun
      · cases hrun

/-- No iteration stores a variable node. -/
theorem Sees.plain (hseen : Sees rules params iteration run seen)
    (hrules : ∀ r ∈ rules, r.conclusion.Grammatical) (hinv : run.facts.Inv)
    (hp : run.facts.Plain)
    (hrejected : ∀ k x, run.rejected.get? k = some x → inUnit x = true ∧ ¬ x ≥ params.threshold) :
    seen.Inv ∧ seen.Plain := by
  induction hseen with
  | now _ _ => exact ⟨hinv, hp⟩
  | later hround haccept _ ih =>
    obtain ⟨hkeeps, _⟩ :=
      fireAll_spec hinv (readable_of_plain hp) (keeps_empty hrejected _) hround
    obtain ⟨hinv', hp'⟩ := accept_keeps_plain hinv hp (hkeeps.printable hinv hp hrules) haccept
    exact ih hinv' hp' hkeeps.rejected

/-- In a store without variable nodes a match of a pattern binds its variables and no others, and
reads as the tree of its atom; so does a solution for each of its patterns, and what has no other
variables becomes a ground tree. The rules of a run from such a store fire with ground conclusions
over all facts that they ever see. -/
theorem matches_readAsTrees (h : s.Reachable) (hp : s.Plain) :
    (∀ p : Pattern, ∃ ms, s.matchesOf p = .ok ms ∧ ∀ m ∈ ms, m.bindings.keys.Nodup ∧
      (∀ v, v ∈ m.bindings.keys ↔ v ∈ p.vars) ∧
      (p.WellKinded → s.ReadsAs m.bindings p m.atomId)) ∧
    (∀ ps : List Pattern, ∃ sols, s.solutions ps .empty = .ok sols ∧ ∀ sol ∈ sols,
      s.AsTrees ps sol.bindings sol.atomIds) ∧
    ∀ rules : List Rule, (∀ r ∈ rules, r.conclusion.Grammatical ∧
        ∀ v ∈ r.conclusion.occurrences, v ∈ occurrencesList r.premises) →
      ∀ params premises seen, Sees rules params 1 ⟨scratch s premises, [], [], .empty⟩ seen →
        ∀ r ∈ rules, ∃ sols, seen.solutions r.premises .empty = .ok sols ∧ ∀ sol ∈ sols,
          ∃ q, seen.instantiate r.conclusion sol.bindings = .ok q ∧ q.isGround = true := by
  refine ⟨fun p => ?_, fun ps => ?_, fun rules hrules params premises seen hseen r hr => ?_⟩
  · have hscan : s.matchesOf p = .ok (s.scan p .empty) :=
      matchesFrom_eq_scan h.inv p (holds_empty s)
    refine ⟨_, hscan, fun m hm => ?_⟩
    obtain ⟨sols, hsols, hsol⟩ := exists_solution_of_match h.inv hscan hm
    obtain ⟨honce, hdomain, htrees, _⟩ := asTrees_of_solutions h.inv hp hsols hsol
    refine ⟨honce, fun v => ?_, fun hk => ?_⟩
    · rw [hdomain v]
      unfold varsOf occurrencesList
      rw [show occurrencesList [] = [] from rfl, List.append_nil]
      rfl
    · cases htrees (List.forall_mem_singleton.2 hk) with
      | cons hread _ => exact hread
  · obtain ⟨sols, hsols⟩ := solutions_ok h.inv ps (holds_empty s)
    exact ⟨sols, hsols, fun sol hsol => asTrees_of_solutions h.inv hp hsols hsol⟩
  · obtain ⟨hinv, hplain⟩ := hseen.plain (fun r hr => (hrules r hr).1) (inv_scratch h.inv premises)
      (plain_scratch h.inv hp premises) (below_empty params)
    obtain ⟨sols, hsols⟩ := solutions_ok hinv r.premises (holds_empty seen)
    exact ⟨sols, hsols, fun sol hsol =>
      (asTrees_of_solutions hinv hplain hsols hsol).ground r.conclusion (hrules r hr).2⟩

open Rows in
/-- A list of two nodes, matched by a list of two variables. -/
theorem matches_readAsTrees_pair :
    let p := row [.var "$X", .var "$Y"]
    let m : Match := ⟨⟨[("$X", 1), ("$Y", 2)]⟩, 3⟩
    pair.Reachable ∧ pair.Plain ∧ pair.matchesOf p = .ok [m] ∧
      pair.ReadsAs m.bindings p m.atomId ∧
      ∀ r ∈ [swap], ∃ sols, pair.snapshot.solutions r.premises .empty = .ok sols ∧ ∀ sol ∈ sols,
        ∃ q, pair.snapshot.instantiate r.conclusion sol.bindings = .ok q ∧ q.isGround = true := by
  intro p m
  have hs : pair.Reachable := Reachable.single _
  have hmatches : pair.matchesOf p = .ok [m] := ok_of_toOption (by decide +kernel)
  obtain ⟨hmatch, _, hfires⟩ := matches_readAsTrees hs plain_pair
  obtain ⟨ms, hms, hread⟩ := hmatch p
  obtain rfl := Except.ok.inj (hmatches.symm.trans hms)
  have hkinded : p.WellKinded := ⟨rfl, trivial, trivial, trivial⟩
  have hswap : ∀ v ∈ swap.conclusion.occurrences, v ∈ occurrencesList swap.premises := by decide
  refine ⟨hs, plain_pair, hmatches, (hread m (List.mem_singleton_self m)).2.2 hkinded, ?_⟩
  exact hfires [swap] (List.forall_mem_singleton.2 ⟨grammatical_swap, hswap⟩) .default none _
    (.now ..)

end Forward

end Credence
