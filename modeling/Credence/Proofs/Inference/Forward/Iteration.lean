import Credence.Inference.Forward
import Credence.Proofs.Except
/-!
# Iterations

An iteration comes to an end in four ways: the time is over before it, it collects
nothing, there is no room for all that it collects, or everything is stored and another
iteration follows. Steps and conclusions are only ever added behind those before.
-/

namespace Credence.Forward

variable {facts facts' : Store} {rules : List Rule} {params : Params} {deadline : Deadline}
  {more iteration polls : Nat} {run last : Run} {outcome : Outcome}

/-! ## One iteration -/

/-- The ways in which a run with an iteration left comes to its end. -/
inductive Iterates (rules : List Rule) (params : Params) (deadline : Deadline)
    (more iteration : Nat) (run : Run) : Outcome → Run → Prop
  | expired (htime : deadline.timeout ≠ none) :
    Iterates rules params deadline more iteration run ⟨false, true, iteration - 1⟩ run
  | quiet {round : Round}
    (hround : fireAll run.facts rules params iteration ⟨run.steps, .empty, run.rejected⟩ =
      .ok round)
    (hnone : round.pending.entries.isEmpty = true) :
    Iterates rules params deadline more iteration run ⟨false, false, iteration⟩
      ⟨run.facts, round.steps, run.conclusions, round.rejected⟩
  | cut {round : Round} {facts : Store} {ks : List Conclusion}
    (hround : fireAll run.facts rules params iteration ⟨run.steps, .empty, run.rejected⟩ =
      .ok round)
    (hsome : round.pending.entries.isEmpty = false)
    (haccept : accept params.maxResults round.pending.values run.facts run.conclusions =
      .ok (facts, ks, true)) :
    Iterates rules params deadline more iteration run ⟨true, false, iteration⟩
      ⟨facts, round.steps, ks, round.rejected⟩
  | stored {round : Round} {facts : Store} {ks : List Conclusion} {polls : Nat}
    {outcome : Outcome} {last : Run}
    (hround : fireAll run.facts rules params iteration ⟨run.steps, .empty, run.rejected⟩ =
      .ok round)
    (hsome : round.pending.entries.isEmpty = false)
    (haccept : accept params.maxResults round.pending.values run.facts run.conclusions =
      .ok (facts, ks, false))
    (hrest : iterate rules params deadline more (iteration + 1) polls
      ⟨facts, round.steps, ks, round.rejected⟩ = .ok (outcome, last)) :
    Iterates rules params deadline more iteration run outcome last

theorem iterates_of_iterate
    (hrun : iterate rules params deadline (more + 1) iteration polls run = .ok (outcome, last)) :
    Iterates rules params deadline more iteration run outcome last := by
  unfold iterate at hrun
  split at hrun
  · next hpoll =>
    cases hrun
    refine .expired fun hnone => ?_
    -- Without a time a deadline is never over.
    unfold Deadline.poll at hpoll
    rw [hnone] at hpoll
    cases hpoll
  · obtain ⟨round, hround, hrun⟩ := bind_eq_ok hrun
    dsimp only at hrun
    split at hrun
    · next hnone =>
      cases hrun
      exact .quiet hround hnone
    · next hsome =>
      obtain ⟨⟨facts, ks, truncated⟩, haccept, hrun⟩ := bind_eq_ok hrun
      cases truncated with
      | true =>
        cases hrun
        exact .cut hround (Bool.eq_false_iff.2 hsome) haccept
      | false => exact .stored hround (Bool.eq_false_iff.2 hsome) haccept hrun

/-! ## What is only added to -/

theorem steps_record (round : Round) (params : Params) (iteration : Nat) (r : Rule)
    (premises : List String) (conclusion : Pattern) (truth : Truth) :
    round.steps <+: (round.record params iteration r premises conclusion truth).steps := by
  unfold Round.record
  dsimp only
  split <;> exact List.prefix_append _ _

theorem steps_fire {r : Rule} {round round' : Round} {sol : Solution}
    (hrun : fire facts params iteration r round sol = .ok round') : round.steps <+: round'.steps := by
  unfold fire at hrun
  obtain ⟨q, _, hrun⟩ := bind_eq_ok hrun
  split at hrun
  · cases hrun
    exact List.prefix_rfl
  · obtain ⟨t, _, hrun⟩ := bind_eq_ok hrun
    obtain ⟨known, _, hrun⟩ := bind_eq_ok hrun
    dsimp only at hrun
    split at hrun
    · cases hrun
      exact List.prefix_rfl
    · obtain ⟨texts, _, hrun⟩ := bind_eq_ok hrun
      cases hrun
      exact steps_record ..

theorem steps_fireAll {round round' : Round}
    (hrun : fireAll facts rules params iteration round = .ok round') :
    round.steps <+: round'.steps := by
  refine foldlM_induct (P := fun mid => round.steps <+: mid.steps) List.prefix_rfl
    (fun r _ c c' hc hstep => ?_) hrun
  obtain ⟨sols, _, hstep⟩ := bind_eq_ok hstep
  exact foldlM_induct (P := fun mid => round.steps <+: mid.steps) hc
    (fun sol _ d d' hd hfire => hd.trans (steps_fire hfire)) hstep

theorem conclusions_accept {n : Nat} {es : List (Pattern × Conclusion)} {ks ks' : List Conclusion}
    {truncated : Bool} (hrun : accept n es facts ks = .ok (facts', ks', truncated)) :
    ks <+: ks' := by
  induction es generalizing facts ks with
  | nil =>
    cases hrun
    exact List.prefix_rfl
  | cons e es ih =>
    unfold accept at hrun
    split at hrun
    · cases hrun
      exact List.prefix_rfl
    · split at hrun
      · exact (List.prefix_append ks [e.2]).trans (ih hrun)
      · cases hrun

/-- Whether a run has the steps and the conclusions of another, and perhaps more behind them. -/
structure Run.Leads (run last : Run) : Prop where
  steps : run.steps <+: last.steps
  conclusions : run.conclusions <+: last.conclusions

theorem Run.Leads.refl (run : Run) : run.Leads run := ⟨List.prefix_rfl, List.prefix_rfl⟩

theorem Run.Leads.trans {run mid last : Run} (h : run.Leads mid) (h' : mid.Leads last) :
    run.Leads last :=
  ⟨h.steps.trans h'.steps, h.conclusions.trans h'.conclusions⟩

theorem leads_of_iterate
    (hrun : iterate rules params deadline more iteration polls run = .ok (outcome, last)) :
    run.Leads last := by
  induction more generalizing iteration polls run with
  | zero =>
    cases hrun
    exact .refl _
  | succ more ih =>
    cases iterates_of_iterate hrun with
    | expired _ => exact .refl _
    | quiet hround _ => exact ⟨steps_fireAll hround, List.prefix_rfl⟩
    | cut hround _ haccept => exact ⟨steps_fireAll hround, conclusions_accept haccept⟩
    | stored hround _ haccept hrest =>
      exact .trans ⟨steps_fireAll hround, conclusions_accept haccept⟩ (ih hrest)

end Credence.Forward
