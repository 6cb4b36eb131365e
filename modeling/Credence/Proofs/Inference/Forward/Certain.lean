import Credence.Proofs.Inference.Forward.Order
import Credence.Proofs.Store.Grown
/-!
# Forward chaining where confidences do not count

Without uncertainty a rule fires with its reliability, whatever it consumes. There is
one place left where a run looks at stored confidences: a conclusion is passed over if
the facts hold it with at least the reliability of the rule. If the atoms that a rule
can conclude have confidences on the same side of its reliability in two copies, the
two runs pass over the same conclusions, and everything that they store has the same
truth value in both. Then they go through the same steps.
-/

namespace Credence

/-- Whether two confidences lie on the same side of a reliability: both reach it or neither does,
and both are it or neither is. -/
structure SameSide (r x x' : Float) : Prop where
  reaches : x' ≥ r ↔ x ≥ r
  equals : (x' == r) = (x == r)

namespace Forward

open Pattern Store

/-- Whether the atoms that rules can conclude have confidences in both copies on the same side of
the reliabilities of these rules. -/
def Settled (c c' : Store) (rules : List Rule) : Prop :=
  ∀ r ∈ rules, ∀ σ : Valuation, (r.conclusion.subst σ).isGround = true → ∀ id a a',
    c.Denoted (r.conclusion.subst σ) id → c.get? id = some a → c'.get? id = some a' →
      SameSide r.reliability.toFloat a.truth.confidence a'.truth.confidence

/-- The facts of two runs that have stored the same. -/
structure Parallel (c c' s s' : Store) : Prop where
  left : s.Inv
  right : s'.Inv
  copy : c.Inv
  retains : Retains c s
  grown : Grown c c' s s'

/-- Whether a rule concludes a tree with its reliability. -/
def Concludes (rules : List Rule) (q : Pattern) (x : Float) : Prop :=
  q.isGround = true ∧ ∃ r ∈ rules, (∃ σ, q = r.conclusion.subst σ) ∧ x = r.reliability.toFloat

variable {c c' s s' : Store} {rules : List Rule} {params : Params}

/-! ## Firing -/

/-- The confidences that a rule consumes do not count. -/
theorem fireTruth_certain (r : Rule) {ts ts' : List Truth}
    (h : ts'.map Truth.strength = ts.map Truth.strength) :
    fireTruth r ts' false = fireTruth r ts false := by
  unfold fireTruth Truth.conjoin
  dsimp only
  rw [if_neg Bool.false_ne_true, if_neg Bool.false_ne_true, Truth.strength_foldl,
    Truth.strength_foldl, h]

theorem strengths_twin (h : Twin Truth.strength s s') (ids : List AtomId) :
    ((ids.filterMap s'.get?).map Atom.truth).map Truth.strength =
      ((ids.filterMap s.get?).map Atom.truth).map Truth.strength := by
  rw [List.map_map, List.map_map, List.map_filterMap, List.map_filterMap]
  refine List.filterMap_congr fun id _ => ?_
  rcases h.get?_cases id with ⟨ha, ha'⟩ | ⟨a, a', ha, ha', hshown⟩
  · rw [ha, ha']
  · rw [ha, ha']
    exact congrArg some (Atom.part_of_shown hshown)

/-- Where the truth values of an atom differ that a rule can conclude, both are on the same side of
its reliability. -/
theorem Parallel.sameSide (h : Parallel c c' s s') (hsettled : Settled c c' rules) {q : Pattern}
    {x : Float} (hq : Concludes rules q x) {id : AtomId} (hd : s.Denoted q id) {a a' : Atom}
    (ha : s.get? id = some a) (ha' : s'.get? id = some a') :
    a'.truth = a.truth ∨ SameSide x a.truth.confidence a'.truth.confidence := by
  refine (h.grown.truth id a a' ha ha').imp_right fun ⟨hold, hold'⟩ => ?_
  obtain ⟨hground, r, hr, ⟨σ, rfl⟩, rfl⟩ := hq
  have hid : id ∈ c.ids := contains_iff.1 (Option.isSome_iff_exists.2 ⟨a, hold⟩)
  obtain ⟨_, b, hd⟩ := hd
  exact hsettled r hr σ hground id a a' ⟨hid, b, (h.retains.denotes_iff h.copy h.left hid).1 hd⟩ hold hold'

/-- What a rule concludes is known to both runs or to neither. -/
theorem Parallel.isKnown (h : Parallel c c' s s') (hsettled : Settled c c' rules) {q : Pattern}
    {t : Truth} (hq : Concludes rules q t.confidence) :
    Forward.isKnown s' q t = Forward.isKnown s q t := by
  obtain ⟨o, ho, hfound⟩ := found_of_lookup h.left q
  have ho' := (h.grown.twin.lookup h.left h.right q).trans ho
  rw [isKnown_eq ho, isKnown_eq ho']
  unfold confidenceAt
  cases hfound with
  | none => rfl
  | @some id hd =>
    rw [Option.bind_some, Option.bind_some]
    rcases h.grown.twin.get?_cases id with ⟨ha, ha'⟩ | ⟨a, a', ha, ha', _⟩
    · rw [ha, ha']
    · rw [ha, ha']
      rcases h.sameSide hsettled hq hd ha ha' with heq | hside
      · rw [Option.map_some, Option.map_some, heq]
      · exact congrArg Except.ok (decide_eq_decide.2 hside.reaches)

theorem concludes_of_instantiate {r : Rule} (hr : r ∈ rules) {b : Bindings} {q : Pattern}
    (hq : s.instantiate r.conclusion b = .ok q) (hground : q.isGround = true) {ts : List Truth}
    {t : Truth} (ht : fireTruth r ts false = .ok t) : Concludes rules q t.confidence := by
  obtain ⟨θ, _, rfl⟩ := map_eq_ok hq
  exact ⟨hground, r, hr, ⟨_, Substitution.apply_eq_subst _⟩, (fireTruth_ok ht).2.2⟩

theorem fire_parallel (h : Parallel c c' s s') (hsettled : Settled c c' rules)
    (hu : params.useUncertainty = false) {r : Rule} (hr : r ∈ rules) (iteration : Nat)
    (round : Round) (sol : Solution) :
    fire s' params iteration r round sol = fire s params iteration r round sol := by
  cases hq : s.instantiate r.conclusion sol.bindings with
  | error e =>
    unfold fire
    rw [h.grown.twin.instantiate, hq]
    rfl
  | ok q =>
    have hq' := hq
    rw [← h.grown.twin.instantiate] at hq'
    cases hground : q.isGround with
    | false => rw [fire_of_open hq hground, fire_of_open hq' hground]
    | true =>
      rw [fire_of_ground hq hground, fire_of_ground hq' hground, hu,
        fireTruth_certain r (strengths_twin h.grown.twin sol.atomIds), h.grown.twin.toTexts]
      cases ht : fireTruth r ((sol.atomIds.filterMap s.get?).map Atom.truth) false with
      | error e => rfl
      | ok t =>
        show (Forward.isKnown s' q t >>= _) = (Forward.isKnown s q t >>= _)
        rw [h.isKnown hsettled (concludes_of_instantiate hr hq hground ht)]

/-- Two iterations collect the same. -/
theorem fireAll_parallel (h : Parallel c c' s s') (hsettled : Settled c c' rules)
    (hu : params.useUncertainty = false) (iteration : Nat) (round : Round) :
    fireAll s' rules params iteration round = fireAll s rules params iteration round := by
  unfold fireAll
  refine foldlM_congr (fun r hr round => ?_) round
  rw [h.grown.twin.solutions h.left h.right]
  refine bind_congr fun sols => foldlM_congr (fun sol _ round => ?_) round
  exact fire_parallel h hsettled hu hr iteration round sol

/-! ## Storing -/

/-- Whether everything that a round has collected is concluded by rules. -/
def Round.Concluded (rules : List Rule) (round : Round) : Prop :=
  ∀ e ∈ round.pending.entries, Concludes rules e.2.1 e.2.2.truth.confidence ∧ e.2.2.truth.IsValid

theorem concluded_empty (rules : List Rule) (steps : List Firing) (rejected : Table String Float) :
    Round.Concluded rules ⟨steps, .empty, rejected⟩ := List.forall_mem_nil _

theorem Round.Concluded.fire (hs : s.Inv) (hu : params.useUncertainty = false) {r : Rule}
    (hr : r ∈ rules) {iteration : Nat} {round round' : Round} {sol : Solution}
    (h : round.Concluded rules)
    (hrun : Forward.fire s params iteration r round sol = .ok round') :
    round'.Concluded rules := by
  unfold Forward.fire at hrun
  obtain ⟨q, hq, hrun⟩ := bind_eq_ok hrun
  split at hrun
  · cases hrun
    exact h
  · next hground =>
    rw [Bool.not_eq_true', Bool.not_eq_false] at hground
    obtain ⟨t, ht, hrun⟩ := bind_eq_ok hrun
    obtain ⟨known, _, hrun⟩ := bind_eq_ok hrun
    dsimp only at hrun
    split at hrun
    · cases hrun
      exact h
    · obtain ⟨texts, _, hrun⟩ := bind_eq_ok hrun
      cases hrun
      rw [hu] at ht
      unfold Round.record
      dsimp only
      split
      · intro e he
        rcases Table.mem_of_mem_insert he with hold | rfl
        · exact h e hold
        · exact ⟨concludes_of_instantiate hr hq hground ht,
            isValid_of_fireTruth (isValid_of_consumed hs sol.atomIds) ht⟩
      · exact h

theorem concluded_fireAll (hs : s.Inv) (hu : params.useUncertainty = false) {iteration : Nat}
    {round round' : Round} (h : round.Concluded rules)
    (hrun : fireAll s rules params iteration round = .ok round') : round'.Concluded rules := by
  refine foldlM_induct h (fun r hr d d' hd hstep => ?_) hrun
  obtain ⟨sols, _, hstep⟩ := bind_eq_ok hstep
  exact foldlM_induct hd (fun sol _ e e' he hfire => he.fire hs hu hr hfire) hstep

/-- Asserting what a rule concludes has one outcome in both runs. -/
theorem Parallel.assert (h : Parallel c c' s s') (hsettled : Settled c c' rules) {q : Pattern}
    {t : Truth} (hq : Concludes rules q t.confidence) (ht : t.IsValid) :
    Alongside (Parallel c c') (Store.assert q (some t)) s s' := by
  have hvalid : ∀ u, some t = some u → u.IsValid := fun u hu => Option.some.inj hu ▸ ht
  have hrun := (lasting_grown c c').assert h.left h.right h.grown (p := q) (t := t) ?_
  · have hchanges := changes_assert s q (some t) hvalid
    exact ⟨hrun.outcome, hchanges.inv h.left, (changes_assert s' q (some t) hvalid).inv h.right,
      h.copy, hchanges.retains h.retains, hrun.related⟩
  · intro root u u' a a' hensure hensure' hu ha ha'
    have hchanges := changes_ensure (some t) hvalid q s
    rw [hensure] at hchanges
    have hnext : Parallel c c' u u' :=
      ⟨inv_of_run_ensure h.left hvalid hensure, inv_of_run_ensure h.right hvalid hensure', h.copy,
        hchanges.retains h.retains, hu⟩
    have hroot := (existing_of_run_ensure h.left hensure).2
    have hd : u.Denoted q root :=
      ⟨mem_ids_of_existing hroot, .empty, denotes_of_existing hnext.left _ hroot⟩
    rcases hnext.sameSide hsettled hq hd ha ha' with heq | hside
    · rw [heq]
    · have hstrength : a'.truth.strength = a.truth.strength := by
        have hshown := hu.twin.get? root
        rw [ha, ha'] at hshown
        exact Atom.part_of_shown (Option.some.inj hshown)
      show (_ == _ && _ == _) = (_ == _ && _ == _)
      rw [hstrength, hside.equals]

/-- Storing what a round has collected ends equally in both runs. -/
theorem accept_parallel (hsettled : Settled c c' rules) {es : List (Pattern × Conclusion)}
    (hes : ∀ e ∈ es, Concludes rules e.1 e.2.truth.confidence ∧ e.2.truth.IsValid) (n : Nat)
    (ks : List Conclusion) (h : Parallel c c' s s') :
    Equally (fun x x' => Parallel c c' x.1 x'.1 ∧ x'.2 = x.2) (accept n es s ks)
      (accept n es s' ks) := by
  induction es generalizing s s' ks with
  | nil => exact .ok ⟨h, rfl⟩
  | cons e es ih =>
    obtain ⟨q, k⟩ := e
    obtain ⟨⟨hq, ht⟩, hes⟩ := List.forall_mem_cons.1 hes
    unfold accept
    split
    · exact .ok ⟨h, rfl⟩
    · obtain ⟨hout, hnext⟩ := h.assert hsettled hq ht
      cases hrun : (Store.assert q (some k.truth)).run.run s with
      | mk r u =>
        rw [hrun] at hout hnext
        cases hrun' : (Store.assert q (some k.truth)).run.run s' with
        | mk r' u' =>
          rw [hrun'] at hout hnext
          obtain rfl : r' = r := hout
          cases r' with
          | error e => exact .error e
          | ok id => exact ih hes (ks ++ [k]) hnext

/-! ## Running -/

/-- Two runs that have come equally far end equally, after the same steps and with the same
conclusions. -/
theorem iterate_parallel (hsettled : Settled c c' rules) (hu : params.useUncertainty = false)
    (deadline : Deadline) (more iteration polls : Nat) (steps : List Firing)
    (ks : List Conclusion) (rejected : Table String Float) (h : Parallel c c' s s') :
    Equally (fun x x' => x'.1 = x.1 ∧ x'.2.steps = x.2.steps ∧ x'.2.conclusions = x.2.conclusions)
      (iterate rules params deadline more iteration polls ⟨s, steps, ks, rejected⟩)
      (iterate rules params deadline more iteration polls ⟨s', steps, ks, rejected⟩) := by
  induction more generalizing s s' iteration polls steps ks rejected with
  | zero => exact .ok ⟨rfl, rfl, rfl⟩
  | succ more ih =>
    unfold iterate
    split
    · exact .ok ⟨rfl, rfl, rfl⟩
    · dsimp only
      rw [fireAll_parallel h hsettled hu]
      cases hround : fireAll s rules params iteration ⟨steps, .empty, rejected⟩ with
      | error e => exact .error e
      | ok round =>
        show Equally _ (if round.pending.entries.isEmpty then _ else _ : Except Error _)
          (if round.pending.entries.isEmpty then _ else _ : Except Error _)
        split
        · exact .ok ⟨rfl, rfl, rfl⟩
        · have hconcluded :=
            concluded_fireAll h.left hu (concluded_empty rules steps rejected) hround
          have hpending : ∀ e ∈ round.pending.values,
              Concludes rules e.1 e.2.truth.confidence ∧ e.2.truth.IsValid :=
            List.forall_mem_map.2 hconcluded
          have haccept := accept_parallel hsettled hpending params.maxResults ks h
          show Equally _ (accept _ _ _ _ >>= _) (accept _ _ _ _ >>= _)
          generalize accept params.maxResults round.pending.values s ks = x at haccept
          generalize accept params.maxResults round.pending.values s' ks = x' at haccept
          cases haccept with
          | error e => exact .error e
          | @ok x x' hnext =>
            obtain ⟨u, ks, truncated⟩ := x
            obtain ⟨u', ks', truncated'⟩ := x'
            obtain ⟨hparallel, heq⟩ := hnext
            cases heq
            cases truncated with
            | true => exact .ok ⟨rfl, rfl, rfl⟩
            | false => exact ih _ _ _ _ _ hparallel

/-- Runs over copies with confidences on the same sides of reliabilities end equally. -/
theorem chain_certain {s s' : Store} (hs : s.Inv) (hs' : s'.Inv) (h : Twin Truth.strength s s')
    (hu : params.useUncertainty = false) (premises : Option (List AtomId))
    (hsettled : Settled (scratch s premises) (scratch s' premises) rules) (clock : Clock) :
    chain s' rules premises params clock = chain s rules premises params clock := by
  have htwin : Twin Truth.strength (scratch s premises) (scratch s' premises) := by
    cases premises with
    | none =>
      show Twin Truth.strength (s.subset s.ids) (s'.subset s'.ids)
      rw [h.ids]
      exact h.subset s.ids
    | some ids => exact h.subset ids
  have hparallel : Parallel (scratch s premises) (scratch s' premises) (scratch s premises)
      (scratch s' premises) :=
    ⟨inv_scratch hs premises, inv_scratch hs' premises, inv_scratch hs premises,
      fun a ha => ⟨a, ha, rfl, rfl⟩, grown_refl htwin⟩
  have hiterate := iterate_parallel hsettled hu ⟨params.timeout, clock⟩ params.maxSteps 1 0 [] []
    .empty hparallel
  have hunfold : ∀ s : Store, chain s rules premises params clock = (do
      let texts ← s.toTexts (premises.getD s.ids)
      let ended ← iterate rules params ⟨params.timeout, clock⟩ params.maxSteps 1 0
        ⟨scratch s premises, [], [], .empty⟩
      return ⟨ended.1, texts, ended.2.steps, ended.2.conclusions⟩) := fun s => by
    cases premises <;> rfl
  rw [hunfold, hunfold, h.toTexts, h.ids]
  refine bind_congr fun texts => ?_
  generalize iterate rules params ⟨params.timeout, clock⟩ params.maxSteps 1 0
    ⟨scratch s premises, [], [], .empty⟩ = x at hiterate
  generalize iterate rules params ⟨params.timeout, clock⟩ params.maxSteps 1 0
    ⟨scratch s' premises, [], [], .empty⟩ = x' at hiterate
  cases hiterate with
  | error e => rfl
  | @ok x x' hend =>
    obtain ⟨hout, hsteps, hks⟩ := hend
    show Except.ok (Result.mk x'.1 texts x'.2.steps x'.2.conclusions) =
      .ok ⟨x.1, texts, x.2.steps, x.2.conclusions⟩
    rw [hout, hsteps, hks]

end Forward

end Credence
