import Credence.Proofs.Inference.Forward.Iteration
import Credence.Proofs.Inference.Forward.Saturation
import Credence.Proofs.Params
/-!
# What bounds cut off

The bounds on iterations and conclusions and the time allowed decide only how far a run
gets: with wider bounds and no limit on time it goes through the same steps and comes to
the same conclusions first. A run that neither bound stopped goes no further with wider
ones.
-/

namespace Credence.Forward

variable {s : Store} {rules : List Rule} {params : Params} {clock clock' : Clock} {m n : Nat}

/-! ## Storing conclusions -/

/-- What there is room for is stored first where there is more room. -/
theorem prefix_of_accept {u u' : Store} {es : List (Pattern × Conclusion)}
    {ks ks' ks'' : List Conclusion} {truncated : Bool} (hmn : m ≤ n)
    (hcut : accept m es s ks = .ok (u, ks', true))
    (hrun : accept n es s ks = .ok (u', ks'', truncated)) : ks' <+: ks'' := by
  induction es generalizing s ks with
  | nil => cases hcut
  | cons e es ih =>
    have hmore := conclusions_accept hrun
    unfold accept at hcut hrun
    split at hcut
    · cases hcut
      exact hmore
    · next hroom =>
      rw [if_neg fun hfull => hroom (Nat.le_trans hmn hfull)] at hrun
      split at hcut
      · next hassert =>
        rw [hassert] at hrun
        exact ih hcut hrun
      · cases hcut

/-! ## Running -/

/-- A run without a limit on time is never left incomplete. -/
theorem incomplete_of_iterate {more iteration polls : Nat} {run last : Run} {outcome : Outcome}
    (hrun : iterate rules params ⟨none, clock⟩ more iteration polls run = .ok (outcome, last)) :
    outcome.incomplete = false := by
  induction more generalizing iteration polls run with
  | zero =>
    cases hrun
    rfl
  | succ more ih =>
    cases iterates_of_iterate hrun with
    | expired htime => exact absurd rfl htime
    | quiet _ _ => rfl
    | cut _ _ _ => rfl
    | stored _ _ _ hrest => exact ih hrest

/-- Whether a run that ended in some way got no further than another: all that it found comes
first in the other, and the other is the same if nothing stopped it. -/
structure Truncates (outcome : Outcome) (last : Run) (outcome' : Outcome) (last' : Run) :
    Prop where
  leads : last.Leads last'
  whole : outcome.boundReached = false → outcome.incomplete = false →
    outcome' = outcome ∧ last' = last

/-- With more iterations, more room and no limit on time a run gets at least as far. -/
theorem truncates_of_iterate {deadline : Deadline} (hn : params.maxResults ≤ n)
    {more more' : Nat} (hmore : more ≤ more') {iteration polls polls' : Nat} {run last last' : Run}
    {outcome outcome' : Outcome}
    (hrun : iterate rules params deadline more iteration polls run = .ok (outcome, last))
    (hrun' : iterate rules (untimed (params.widened m n)) ⟨none, clock⟩ more' iteration polls' run =
      .ok (outcome', last')) : Truncates outcome last outcome' last' := by
  induction more generalizing more' iteration polls polls' run with
  | zero =>
    -- The bound on iterations has been reached.
    cases hrun
    exact ⟨leads_of_iterate hrun', nofun⟩
  | succ more ih =>
    obtain ⟨more', rfl⟩ := Nat.exists_eq_add_of_le' (Nat.lt_of_lt_of_le (Nat.succ_pos more) hmore)
    cases iterates_of_iterate hrun with
    | expired _ => exact ⟨leads_of_iterate hrun', nofun⟩
    | quiet hround hnone =>
      rw [iterate_of_nothing (untimed (params.widened m n)) hround hnone] at hrun'
      cases hrun'
      exact ⟨.refl _, fun _ _ => ⟨rfl, rfl⟩⟩
    | cut hround hsome haccept =>
      rw [iterate_of_some (untimed (params.widened m n)) hround hsome] at hrun'
      split at hrun'
      · cases hrun'
      · next haccept' =>
        cases hrun'
        exact ⟨⟨List.prefix_rfl, prefix_of_accept hn haccept haccept'⟩, nofun⟩
      · next haccept' =>
        have hrest := leads_of_iterate hrun'
        exact ⟨⟨hrest.steps, (prefix_of_accept hn haccept haccept').trans hrest.conclusions⟩, nofun⟩
    | stored hround hsome haccept hrest =>
      rw [iterate_of_some (untimed (params.widened m n)) hround hsome] at hrun'
      dsimp only [untimed, Params.widened] at hrun'
      rw [accept_of_le hn haccept] at hrun'
      exact ih (Nat.le_of_succ_le_succ hmore) hrest hrun'

/-! ## Chaining -/

/-- A run is a beginning of the same run with wider bounds and no limit on time: its steps and its
conclusions come first there, and if nothing stopped it the two results are the same. Only a limit
on time leaves a run incomplete. -/
theorem chain_truncates {premises : Option (List AtomId)} {result result' : Result}
    (hm : params.maxSteps ≤ m) (hn : params.maxResults ≤ n)
    (hrun : chain s rules premises params clock = .ok result)
    (hrun' : chain s rules premises (untimed (params.widened m n)) clock' = .ok result') :
    result.steps <+: result'.steps ∧ result.conclusions <+: result'.conclusions ∧
      (params.timeout = none → result.outcome.incomplete = false) ∧
      (result.outcome.boundReached = false → result.outcome.incomplete = false →
        result' = result) := by
  unfold chain at hrun hrun'
  obtain ⟨texts, htexts, hrun⟩ := bind_eq_ok hrun
  obtain ⟨texts', htexts', hrun'⟩ := bind_eq_ok hrun'
  obtain rfl := Except.ok.inj (htexts.symm.trans htexts')
  obtain ⟨⟨outcome, last⟩, hiterate, hrun⟩ := bind_eq_ok hrun
  obtain ⟨⟨outcome', last'⟩, hiterate', hrun'⟩ := bind_eq_ok hrun'
  cases hrun
  cases hrun'
  have htruncates := truncates_of_iterate hn hm hiterate hiterate'
  refine ⟨htruncates.leads.steps, htruncates.leads.conclusions, fun htime => ?_,
    fun hbound hcomplete => ?_⟩
  · rw [htime] at hiterate
    exact incomplete_of_iterate hiterate
  · obtain ⟨rfl, rfl⟩ := htruncates.whole hbound hcomplete
    rfl

namespace Rows

/-- One iteration in which the confidences of atoms do not count. -/
def once : Params := certain.widened 1 10

theorem reports_once : reports (chain single [wrap] none once fun _ => 0) =
    some [("(List (List (Concept \"a\")))", 0.8)] := by decide +kernel

end Rows

open Rows in
/-- After one iteration there is the first of the two rows that there are after two. -/
theorem chain_truncates_wrap : ∃ result result',
    chain single [wrap] none once (fun _ => 0) = .ok result ∧
      chain single [wrap] none (untimed (once.widened 2 10)) (fun _ => 0) = .ok result' ∧
      once.maxSteps ≤ 2 ∧ once.maxResults ≤ 10 ∧
      result.conclusions.length = 1 ∧ result'.conclusions.length = 2 ∧
      result.conclusions <+: result'.conclusions := by
  obtain ⟨result, hrun, hreports⟩ := exists_of_reports reports_once
  obtain ⟨result', hrun', hreports'⟩ := exists_of_reports reports_wrap
  have hm : once.maxSteps ≤ 2 := by decide
  have hn : once.maxResults ≤ 10 := by decide
  refine ⟨result, result', hrun, hrun', hm, hn, ?_, ?_, (chain_truncates hm hn hrun hrun').2.1⟩
  · rw [← List.length_map, hreports]
    rfl
  · rw [← List.length_map, hreports']
    rfl

end Credence.Forward
