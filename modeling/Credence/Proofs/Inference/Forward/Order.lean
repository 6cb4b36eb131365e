import Credence.Proofs.Inference.Forward.Mirror
import Credence.Proofs.Inference.Forward.Soundness
/-!
# The order of rules

Two runs whose rules come in different orders, or whose rules have their premises in
different orders, store the same trees in every iteration, under other identifiers and
perhaps with other strengths, but with equal confidences. So they go through the same
number of iterations, report the same statements with equal confidences and fail
together.
-/

namespace Credence

namespace Forward

open Number Pattern Store

variable {c s s' : Store} {rules rules' : List Rule} {params : Params}

/-! ## Runs -/

/-- Whether every conclusion is among others with an equal confidence. -/
def Echoed (ks ks' : List Conclusion) : Prop :=
  ∀ k ∈ ks, ∃ k' ∈ ks', k'.statement = k.statement ∧ Level k.truth.confidence k'.truth.confidence

theorem Echoed.append {ks ks' ls ls' : List Conclusion} (h : Echoed ks ks') (h' : Echoed ls ls') :
    Echoed (ks ++ ls) (ks' ++ ls') := by
  intro k hk
  rcases List.mem_append.1 hk with hk | hk
  · obtain ⟨k', hk', heq⟩ := h k hk
    exact ⟨k', List.mem_append_left _ hk', heq⟩
  · obtain ⟨k', hk', heq⟩ := h' k hk
    exact ⟨k', List.mem_append_right _ hk', heq⟩

/-- What is stored after two iterations is the same. -/
theorem echoed_of_matched {es es' : List (Pattern × Conclusion)}
    (hm : Matched (es.map fun e => (e.1, e.2.truth)) (es'.map fun e => (e.1, e.2.truth)))
    (hes : ∀ e ∈ es, Storable e) (hes' : ∀ e ∈ es', Storable e) :
    Echoed (es.map Prod.snd) (es'.map Prod.snd) := by
  intro k hk
  obtain ⟨e, he, rfl⟩ := List.mem_map.1 hk
  have hmem := List.mem_map_of_mem (f := fun e : Pattern × Conclusion => (e.1, e.2.truth)) he
  obtain ⟨t', hmem'⟩ := (hm.roots e.1).1 ⟨_, hmem⟩
  have hl := hm.level _ _ _ hmem hmem'
  obtain ⟨e', he', heq⟩ := List.mem_map.1 hmem'
  obtain ⟨hp, rfl⟩ := Prod.mk.inj heq
  refine ⟨e'.2, List.mem_map_of_mem he', ?_, hl⟩
  rw [(hes e he).statement, (hes' e' he').statement, hp]

/-- Two runs that have come equally far. -/
structure Abreast (c : Store) (params : Params) (run run' : Run) : Prop where
  facts : Beside c run.facts run'.facts
  forth : Echoed run.conclusions run'.conclusions
  back : Echoed run'.conclusions run.conclusions
  rejected : ∀ k x, run.rejected.get? k = some x → inUnit x = true ∧ ¬ x ≥ params.threshold
  rejected' : ∀ k x, run'.rejected.get? k = some x → inUnit x = true ∧ ¬ x ≥ params.threshold

/-- How two runs end: equally, with the same conclusions. -/
structure Ended (x x' : Outcome × Run) : Prop where
  outcome : x'.1 = x.1
  forth : Echoed x.2.conclusions x'.2.conclusions
  back : Echoed x'.2.conclusions x.2.conclusions

/-- The same parameters with another cap. -/
def capped (params : Params) (n : Nat) : Params := { params with maxResults := n }

theorem keeps_empty {rejected : Table String Float}
    (h : ∀ k x, rejected.get? k = some x → inUnit x = true ∧ ¬ x ≥ params.threshold)
    (steps : List Firing) : Round.Keeps s rules params ⟨steps, .empty, rejected⟩ :=
  ⟨List.nodup_nil, nofun, h⟩

/-- Nothing is rejected yet when a run starts. -/
theorem below_empty (params : Params) : ∀ k x, (Table.empty : Table String Float).get? k = some x →
    inUnit x = true ∧ ¬ x ≥ params.threshold := nofun

section

variable {clock : Clock} {more iteration polls : Nat} {run : Run} {round : Round}

theorem iterate_of_error (params : Params) {e : Error}
    (hround : fireAll run.facts rules params iteration ⟨run.steps, .empty, run.rejected⟩ = .error e) :
    iterate rules params ⟨none, clock⟩ (more + 1) iteration polls run = .error e := by
  unfold iterate
  show (fireAll _ _ _ _ _ >>= _) = _
  rw [hround]
  rfl

theorem iterate_of_nothing (params : Params)
    (hround : fireAll run.facts rules params iteration ⟨run.steps, .empty, run.rejected⟩ = .ok round)
    (hempty : round.pending.entries.isEmpty = true) :
    iterate rules params ⟨none, clock⟩ (more + 1) iteration polls run =
      .ok (⟨false, false, iteration⟩, ⟨run.facts, round.steps, run.conclusions, round.rejected⟩) := by
  unfold iterate
  show (fireAll _ _ _ _ _ >>= _) = _
  rw [hround]
  show (if round.pending.entries.isEmpty then _ else _ : Except Error (Outcome × Run)) = _
  rw [hempty]
  rfl

/-- An iteration that collected something stores it and goes on, unless it is cut short. -/
theorem iterate_of_some (params : Params)
    (hround : fireAll run.facts rules params iteration ⟨run.steps, .empty, run.rejected⟩ = .ok round)
    (hempty : round.pending.entries.isEmpty = false) :
    iterate rules params ⟨none, clock⟩ (more + 1) iteration polls run =
      match accept params.maxResults round.pending.values run.facts run.conclusions with
      | .error e => .error e
      | .ok (u, ks, true) => .ok (⟨true, false, iteration⟩, ⟨u, round.steps, ks, round.rejected⟩)
      | .ok (u, ks, false) => iterate rules params ⟨none, clock⟩ more (iteration + 1) polls
          ⟨u, round.steps, ks, round.rejected⟩ := by
  rw [iterate]
  show (fireAll _ _ _ _ _ >>= _) = _
  rw [hround]
  show (if round.pending.entries.isEmpty then _ else _ : Except Error (Outcome × Run)) = _
  rw [hempty]
  show (accept _ _ _ _ >>= _ : Except Error (Outcome × Run)) = _
  cases accept params.maxResults round.pending.values run.facts run.conclusions with
  | error e => rfl
  | ok x =>
    obtain ⟨u, ks, truncated⟩ := x
    cases truncated <;> rfl

end

theorem fireAll_error {facts : Store} (h : facts.Inv) (hread : facts.Readable) (iteration : Nat)
    (round : Round) (hnot : ¬ Tenable facts rules params) :
    ∃ e, fireAll facts rules params iteration round = .error e := by
  cases hrun : fireAll facts rules params iteration round with
  | ok round' => exact absurd ((fireAll_ok_iff h hread iteration round).1 ⟨round', hrun⟩) hnot
  | error e => exact ⟨e, rfl⟩

/-- What the next iterations of two runs collect: the same statements, which can be stored with
equal confidences. -/
structure Collect (rules rules' : List Rule) (params : Params) (iteration : Nat) (run run' : Run)
    (round round' : Round) : Prop where
  left : fireAll run.facts rules params iteration ⟨run.steps, .empty, run.rejected⟩ = .ok round
  right : fireAll run'.facts rules' params iteration ⟨run'.steps, .empty, run'.rejected⟩ = .ok round'
  keeps : round.Keeps run.facts rules params
  keeps' : round'.Keeps run'.facts rules' params
  matched : Matched round.assertions round'.assertions
  storable : ∀ e ∈ round.pending.values, Storable e
  storable' : ∀ e ∈ round'.pending.values, Storable e

section

variable {run run' : Run} {round round' : Round} {iteration : Nat}

/-- Runs that have come equally far collect the same, if all that fires has a truth value. -/
theorem Abreast.collect (h : Abreast c params run run') (hrules : Rule.Mirrored rules rules')
    (hrules' : Rule.Mirrored rules' rules) (hlegible : ∀ r ∈ rules, r.conclusion.Legible)
    (hlegible' : ∀ r ∈ rules', r.conclusion.Legible) (htenable : Tenable run.facts rules params)
    (iteration : Nat) : ∃ round round', Collect rules rules' params iteration run run' round round' := by
  have hinv := h.facts.left.inv
  have hinv' := h.facts.right.inv
  have hread := h.facts.left.readable
  have hread' := h.facts.right.readable
  obtain ⟨round, hround⟩ := (fireAll_ok_iff hinv hread iteration
    ⟨run.steps, .empty, run.rejected⟩).2 htenable
  obtain ⟨round', hround'⟩ := (fireAll_ok_iff hinv' hread' iteration
    ⟨run'.steps, .empty, run'.rejected⟩).2 (htenable.mirror h.facts hrules')
  obtain ⟨hkeeps, hcovers⟩ := fireAll_spec hinv hread (keeps_empty h.rejected _) hround
  obtain ⟨hkeeps', hcovers'⟩ := fireAll_spec hinv' hread' (keeps_empty h.rejected' _) hround'
  exact ⟨round, round', hround, hround', hkeeps, hkeeps',
    Round.Complete.matched h.facts hrules hrules' hlegible hlegible' ⟨hkeeps, hcovers⟩
      ⟨hkeeps', hcovers'⟩,
    hkeeps.storable hinv hlegible, hkeeps'.storable hinv' hlegible'⟩

/-- What was collected is stored on both sides: the runs have come equally far again. -/
theorem Collect.abreast (hc : Collect rules rules' params iteration run run' round round')
    (h : Abreast c params run run') {u u' : Store} (hfacts : Beside c u u') :
    Abreast c params
      ⟨u, round.steps, run.conclusions ++ round.pending.values.map Prod.snd, round.rejected⟩
      ⟨u', round'.steps, run'.conclusions ++ round'.pending.values.map Prod.snd, round'.rejected⟩ :=
  ⟨hfacts, h.forth.append (echoed_of_matched hc.matched hc.storable hc.storable'),
    h.back.append (echoed_of_matched hc.matched.symm hc.storable' hc.storable),
    hc.keeps.rejected, hc.keeps'.rejected⟩

/-- Where some firing has no truth value, the next iterations of both runs fail. -/
theorem Abreast.fails (h : Abreast c params run run') (hrules : Rule.Mirrored rules rules')
    (hnot : ¬ Tenable run.facts rules params) (iteration : Nat) :
    (∃ e, fireAll run.facts rules params iteration ⟨run.steps, .empty, run.rejected⟩ = .error e) ∧
      ∃ e, fireAll run'.facts rules' params iteration ⟨run'.steps, .empty, run'.rejected⟩ =
        .error e :=
  ⟨fireAll_error h.facts.left.inv h.facts.left.readable iteration _ hnot,
    fireAll_error h.facts.right.inv h.facts.right.readable iteration _
      fun ht => hnot (ht.mirror h.facts.symm hrules)⟩

end

/-- Runs that have come equally far end equally if nothing cuts them short. -/
theorem iterate_mirror (hrules : Rule.Mirrored rules rules') (hrules' : Rule.Mirrored rules' rules)
    (hlegible : ∀ r ∈ rules, r.conclusion.Legible) (hlegible' : ∀ r ∈ rules', r.conclusion.Legible)
    (clock clock' : Clock) (more iteration polls polls' : Nat) {run run' : Run}
    (h : Abreast c params run run') :
    ∃ N, ∀ n, N ≤ n → Together Ended
      (iterate rules (capped params n) ⟨none, clock⟩ more iteration polls run)
      (iterate rules' (capped params n) ⟨none, clock'⟩ more iteration polls' run') := by
  induction more generalizing iteration polls polls' run run' with
  | zero => exact ⟨0, fun n _ => .ok ⟨rfl, h.forth, h.back⟩⟩
  | succ more ih =>
    by_cases htenable : Tenable run.facts rules params
    · obtain ⟨round, round', hc⟩ :=
        h.collect hrules hrules' hlegible hlegible' htenable iteration
      have hsame := isEmpty_of_matched hc.matched
      cases hempty : round.pending.entries.isEmpty with
      | true =>
        -- Nothing new on either side: both runs end.
        refine ⟨0, fun n _ => ?_⟩
        rw [iterate_of_nothing (capped params n) hc.left hempty,
          iterate_of_nothing (capped params n) hc.right (hsame.trans hempty)]
        exact .ok ⟨rfl, h.forth, h.back⟩
      | false =>
        have hempty' := hsame.trans hempty
        obtain ⟨N, ⟨u, u', hfacts, haccept⟩ | hfailed⟩ := accept_mirror h.facts hc.matched
          hc.storable hc.storable' run.conclusions run'.conclusions
        · obtain ⟨M, hM⟩ := ih (iteration + 1) polls polls' (hc.abreast h hfacts)
          refine ⟨max N M, fun n hn => ?_⟩
          obtain ⟨haccept, haccept'⟩ := haccept n (Nat.le_trans (Nat.le_max_left ..) hn)
          rw [iterate_of_some (capped params n) hc.left hempty,
            iterate_of_some (capped params n) hc.right hempty']
          dsimp only [capped]
          rw [haccept, haccept']
          exact hM n (Nat.le_trans (Nat.le_max_right ..) hn)
        · refine ⟨N, fun n hn => ?_⟩
          obtain ⟨⟨e, he⟩, e', he'⟩ := hfailed n hn
          rw [iterate_of_some (capped params n) hc.left hempty,
            iterate_of_some (capped params n) hc.right hempty']
          dsimp only [capped]
          rw [he, he']
          exact .error e e'
    · obtain ⟨⟨e, he⟩, e', he'⟩ := h.fails hrules htenable iteration
      refine ⟨0, fun n _ => ?_⟩
      rw [iterate_of_error (capped params n) he, iterate_of_error (capped params n) he']
      exact .error e e'

/-! ## Chaining -/

/-- Whether the cap on results cuts nothing off: with any greater cap the run is the same. -/
def Uncut (s : Store) (rules : List Rule) (premises : Option (List AtomId)) (params : Params)
    (clock : Clock) : Prop :=
  ∀ n, params.maxResults ≤ n →
    chain s rules premises (capped params n) clock = chain s rules premises params clock

/-- What is left out is left out because there are as many results as allowed. -/
theorem le_length_of_accept {n : Nat} {es : List (Pattern × Conclusion)} {ks ks' : List Conclusion}
    {u : Store} (h : accept n es s ks = .ok (u, ks', true)) : n ≤ ks'.length := by
  induction es generalizing s ks with
  | nil => cases h
  | cons e es ih =>
    unfold accept at h
    split at h
    · next hfull =>
      cases h
      exact hfull
    · split at h
      · exact ih h
      · cases h

/-- Where nothing is left out, nothing is with a greater cap. -/
theorem accept_of_le {n m : Nat} (hnm : n ≤ m) {es : List (Pattern × Conclusion)}
    {ks ks' : List Conclusion} {u : Store} (h : accept n es s ks = .ok (u, ks', false)) :
    accept m es s ks = .ok (u, ks', false) := by
  induction es generalizing s ks with
  | nil => exact h
  | cons e es ih =>
    unfold accept at h ⊢
    split at h
    · cases h
    · next hroom =>
      rw [if_neg fun hfull => hroom (Nat.le_trans hnm hfull)]
      split at h
      · exact ih h
      · cases h

theorem iterate_of_le {n : Nat} (hn : params.maxResults ≤ n) {clock : Clock}
    {more iteration polls : Nat} {run run' : Run} {outcome : Outcome}
    (hrun : iterate rules params ⟨none, clock⟩ more iteration polls run = .ok (outcome, run'))
    (hlt : run'.conclusions.length < params.maxResults) :
    iterate rules (capped params n) ⟨none, clock⟩ more iteration polls run =
      .ok (outcome, run') := by
  induction more generalizing iteration polls run with
  | zero => exact hrun
  | succ more ih =>
    cases hround : fireAll run.facts rules params iteration ⟨run.steps, .empty, run.rejected⟩ with
    | error e =>
      rw [iterate_of_error params hround] at hrun
      cases hrun
    | ok round =>
      cases hempty : round.pending.entries.isEmpty with
      | true =>
        rw [iterate_of_nothing params hround hempty] at hrun
        rw [iterate_of_nothing (capped params n) hround hempty, hrun]
      | false =>
        rw [iterate_of_some params hround hempty] at hrun
        rw [iterate_of_some (capped params n) hround hempty]
        split at hrun
        · cases hrun
        · next haccept =>
          -- The run would have been cut short with as many results as allowed.
          cases hrun
          exact absurd (le_length_of_accept haccept) (Nat.not_le.2 hlt)
        · next haccept =>
          dsimp only [capped]
          rw [accept_of_le hn haccept]
          exact ih hrun

/-- A run that reports fewer conclusions than allowed is not cut short. -/
theorem uncut_of_length_lt {s : Store} {premises : Option (List AtomId)}
    (htimeout : params.timeout = none) {clock : Clock} {result : Result}
    (hrun : chain s rules premises params clock = .ok result)
    (hlt : result.conclusions.length < params.maxResults) : Uncut s rules premises params clock := by
  intro n hn
  rw [hrun]
  unfold chain at hrun ⊢
  obtain ⟨texts, htexts, hrun⟩ := bind_eq_ok hrun
  obtain ⟨⟨outcome, run⟩, hiterate, hrun⟩ := bind_eq_ok hrun
  cases hrun
  rw [htimeout] at hiterate
  have hsame := iterate_of_le hn hiterate hlt
  show (s.toTexts _ >>= _) = _
  rw [htexts]
  show (iterate rules (capped params n) ⟨params.timeout, clock⟩ params.maxSteps 1 0 _ >>= _) = _
  rw [htimeout, hsame]
  rfl

/-- Whether every conclusion is among others, with a confidence that is the same number. -/
def Repeated (ks ks' : List Conclusion) : Prop :=
  ∀ k ∈ ks, ∃ k' ∈ ks', k'.statement = k.statement ∧
    (k'.truth.confidence == k.truth.confidence) = true

/-- Two results of runs that ended in the same way after as many iterations and report the same
statements with the same confidences. -/
structure SameReport (result result' : Result) : Prop where
  outcome : result'.outcome = result.outcome
  forth : Repeated result.conclusions result'.conclusions
  back : Repeated result'.conclusions result.conclusions

theorem Echoed.repeated {ks ks' : List Conclusion} (h : Echoed ks ks') : Repeated ks ks' := by
  intro k hk
  obtain ⟨k', hk', htext, hl⟩ := h k hk
  exact ⟨k', hk', htext, hl.symm.beq⟩

/-- A copy is level with itself. -/
theorem abreast_start (h : c.Inv) (hread : c.Readable) :
    Abreast c params ⟨c, [], [], .empty⟩ ⟨c, [], [], .empty⟩ :=
  ⟨⟨h, overlay_refl h hread, overlay_refl h hread, agrees_refl h⟩, List.forall_mem_nil _,
    List.forall_mem_nil _, below_empty params, below_empty params⟩

/-- Rules in another order, of other priorities or with their premises in another order report the
same. Conclusions have to be legible: one that names a variable node by what is no variable fails
only the run that comes to write that node down. -/
theorem chain_rearranged {s : Store} (h : s.Reachable) (hp : s.Plain) {base base' : RuleBase}
    (hrules : Rule.Rearranged base.rules base'.rules)
    (hlegible : ∀ r ∈ base.rules, r.conclusion.Legible) (premises : Option (List AtomId))
    {params : Params} (htimeout : params.timeout = none) {clock clock' : Clock}
    (huncut : Uncut s base.inOrder premises params clock)
    (huncut' : Uncut s base'.inOrder premises params clock') :
    Together SameReport (chain s base.inOrder premises params clock)
      (chain s base'.inOrder premises params clock') := by
  obtain ⟨hto, hfrom⟩ := hrules.mirrored
  have hlegible' := hfrom.legible hlegible
  have hstart : Abreast (scratch s premises) params ⟨scratch s premises, [], [], .empty⟩
      ⟨scratch s premises, [], [], .empty⟩ :=
    abreast_start (inv_scratch h.inv premises) (readable_of_plain (plain_scratch h.inv hp premises))
  obtain ⟨N, hN⟩ := iterate_mirror hto.inOrder hfrom.inOrder
    (fun r hr => hlegible r (RuleBase.mem_inOrder.1 hr).1)
    (fun r hr => hlegible' r (RuleBase.mem_inOrder.1 hr).1) clock clock' params.maxSteps
    1 0 0 hstart
  -- Neither run is cut short, so both are as if the cap were as great as the loop needs.
  have hended := hN (max N params.maxResults) (Nat.le_max_left ..)
  rw [← huncut _ (Nat.le_max_right N _), ← huncut' _ (Nat.le_max_right N _)]
  unfold chain
  show Together SameReport (s.toTexts _ >>= _) (s.toTexts _ >>= _)
  cases s.toTexts (premises.getD s.ids) with
  | error e => exact .error e e
  | ok texts =>
    show Together SameReport
      (iterate base.inOrder (capped params _) ⟨params.timeout, clock⟩ params.maxSteps 1 0
        ⟨scratch s premises, [], [], .empty⟩ >>= _)
      (iterate base'.inOrder (capped params _) ⟨params.timeout, clock'⟩ params.maxSteps 1 0
        ⟨scratch s premises, [], [], .empty⟩ >>= _)
    rw [htimeout]
    generalize iterate base.inOrder _ _ _ _ _ _ = x at hended ⊢
    generalize iterate base'.inOrder _ _ _ _ _ _ = x' at hended ⊢
    cases hended with
    | error e e' => exact .error e e'
    | @ok x x' hx =>
      obtain ⟨outcome, run⟩ := x
      obtain ⟨outcome', run'⟩ := x'
      exact .ok ⟨hx.outcome, hx.forth.repeated, hx.back.repeated⟩

namespace Rows

/-- A rule that takes a row and a thing. -/
def second : Rule :=
  ⟨.text "second", [row [.var "$X", .var "$Y"], thing "b"], row [.var "$Y"], .real 0.9, .null,
    .int 0, true⟩

/-- The same with its premises turned round, and of a higher priority. -/
def urgent : Rule :=
  ⟨.text "urgent", [thing "b", row [.var "$X", .var "$Y"]], row [.var "$Y"], .real 0.9, .null,
    .int 5, true⟩

theorem inOrder_second : RuleBase.inOrder ⟨[swap, second]⟩ = [swap, second] :=
  RuleBase.inOrder_of_pairwise (by decide) (by decide) (by decide)

theorem inOrder_urgent : RuleBase.inOrder ⟨[urgent, swap]⟩ = [urgent, swap] :=
  RuleBase.inOrder_of_pairwise (by decide) (by decide) (by decide)

theorem reports_second : reports (chain pair [swap, second] none .default fun _ => 0) =
    some [("(List (List (Concept \"b\") (Concept \"a\")))", 0.9 * 0.8),
      ("(List (Concept \"b\"))", 0.9 * 0.9),
      ("(List (List (Concept \"a\") (Concept \"b\")))", 0.9 * 0.8),
      ("(List (Concept \"a\"))", 0.9 * 0.9)] := by decide +kernel

theorem reports_urgent : reports (chain pair [urgent, swap] none .default fun _ => 0) =
    some [("(List (Concept \"b\"))", 0.9 * 0.9),
      ("(List (List (Concept \"b\") (Concept \"a\")))", 0.9 * 0.8),
      ("(List (Concept \"a\"))", 0.9 * 0.9),
      ("(List (List (Concept \"a\") (Concept \"b\")))", 0.9 * 0.8)] := by decide +kernel

theorem alike_urgent : second.Alike urgent := ⟨.swap .., rfl, rfl, rfl⟩

theorem uncut_of_reports {s : Store} {rules : List Rule} {ks : List (String × Float)}
    (h : reports (chain s rules none .default fun _ => 0) = some ks) (hlt : ks.length < 10) :
    Uncut s rules none .default fun _ => 0 := by
  obtain ⟨result, hrun, rfl⟩ := exists_of_reports h
  rw [List.length_map] at hlt
  exact uncut_of_length_lt rfl hrun hlt

end Rows

open Rows in
/-- Two runs of two iterations over one row report the same in another order. -/
theorem chain_rearranged_urgent : ∃ result result',
    chain pair (RuleBase.inOrder ⟨[swap, second]⟩) none .default (fun _ => 0) = .ok result ∧
      chain pair (RuleBase.inOrder ⟨[urgent, swap]⟩) none .default (fun _ => 0) = .ok result' ∧
      result.conclusions.length = 4 ∧ SameReport result result' := by
  have hs : pair.Reachable := Store.Reachable.single _
  have hp : pair.Plain := plain_pair
  have hrules : Rule.Rearranged [swap, second] [urgent, swap] :=
    ⟨[second, swap], .swap .., .cons alike_urgent (.cons ⟨.refl _, rfl, rfl, rfl⟩ .nil)⟩
  have hlegible : ∀ r ∈ [swap, second], r.conclusion.Legible := by
    intro r hr
    rcases List.mem_cons.1 hr with rfl | hr
    · refine .link .list (List.forall_mem_singleton.2 (.link .list fun c hc => ?_))
      rcases List.mem_cons.1 hc with rfl | hc
      · exact .var "$Y"
      · rw [List.mem_singleton.1 hc]
        exact .var "$X"
    · rw [List.mem_singleton.1 hr]
      exact .link .list (List.forall_mem_singleton.2 (.var "$Y"))
  have huncut : Uncut pair (RuleBase.inOrder ⟨[swap, second]⟩) none .default fun _ => 0 := by
    rw [inOrder_second]
    exact uncut_of_reports reports_second (by decide)
  have huncut' : Uncut pair (RuleBase.inOrder ⟨[urgent, swap]⟩) none .default fun _ => 0 := by
    rw [inOrder_urgent]
    exact uncut_of_reports reports_urgent (by decide)
  have hsame := chain_rearranged hs hp hrules hlegible none rfl huncut huncut'
  obtain ⟨result, hrun, hreports⟩ := exists_of_reports reports_second
  obtain ⟨result', hrun', _⟩ := exists_of_reports reports_urgent
  rw [← inOrder_second] at hrun
  rw [← inOrder_urgent] at hrun'
  rw [hrun, hrun'] at hsame
  refine ⟨result, result', hrun, hrun', ?_, hsame.of_ok⟩
  rw [← List.length_map, hreports]
  rfl

end Forward

end Credence
