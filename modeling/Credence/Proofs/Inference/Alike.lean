import Credence.Inference.Abduction
import Credence.Inference.Backward
import Credence.Inference.Forward
import Credence.Inference.Propagation
import Credence.Inference.Temporal
import Credence.Proofs.Store.Alike
/-!
# What answers depend on

A strategy reads a store through its questions and through the one part of the truth
values that it counts with, and it reads a clock through its deadline. So stores that
answer alike and clocks that let deadlines pass alike give the same results, count the
same lookups and fail with the same errors. Without a time allowed every clock does.
-/

namespace Credence

open Store

variable {s s' : Store} {params : Params} {clock clock' : Clock}

/-- Without a time allowed one clock is as good as another. -/
theorem poll_eq_of_timeless (h : params.timeout = none) (clock clock' : Clock) :
    Deadline.poll ⟨params.timeout, clock'⟩ = Deadline.poll ⟨params.timeout, clock⟩ := by
  rw [h]
  rfl

/-! ## Forward chaining -/

namespace Forward

theorem iterate_congr {rules : List Rule} {d d' : Deadline} (hpoll : d'.poll = d.poll)
    (more iteration polls : Nat) (run : Run) :
    iterate rules params d' more iteration polls run =
      iterate rules params d more iteration polls run := by
  induction more generalizing iteration polls run with
  | zero => rfl
  | succ more ih =>
    unfold iterate
    rw [hpoll]
    simp only [ih]

/-- Chaining forward looks at a store to make its copy, and to tell what it starts from. -/
theorem chain_congr {rules : List Rule} {premises : Option (List AtomId)}
    (hids : s'.ids = s.ids) (htexts : s'.toTexts = s.toTexts) (hsubset : s'.subset = s.subset)
    (hpoll : Deadline.poll ⟨params.timeout, clock'⟩ = Deadline.poll ⟨params.timeout, clock⟩) :
    chain s' rules premises params clock' = chain s rules premises params clock := by
  unfold chain snapshot
  rw [hids, htexts, hsubset]
  simp only [iterate_congr hpoll]

end Forward

/-! ## Backward chaining -/

namespace Backward

/-- Problems that a search cannot tell apart. -/
structure Problem.Alike (pb pb' : Problem) : Prop where
  facts : pb'.facts = pb.facts
  byFact : pb'.byFact = pb.byFact
  rules : pb'.rules = pb.rules
  params : pb'.params = pb.params
  poll : State.poll pb'.deadline = State.poll pb.deadline

variable {pb pb' : Problem} {rules : RuleBase}

theorem Problem.Alike.prove (h : pb.Alike pb') (levels : Nat) :
    pb'.prove levels = pb.prove levels := by
  induction levels with
  | zero =>
    funext depth open_ goal θ
    unfold Problem.prove
    rw [h.poll]
  | succ levels ih =>
    funext depth open_ goal θ
    unfold Problem.prove
    simp only [h.poll, h.facts, h.byFact, h.rules, ih]

theorem Problem.Alike.provePremises (h : pb.Alike pb') (key : String) (gs : List Pattern)
    (θ : Substitution) (st : State) :
    pb'.provePremises key gs θ st = pb.provePremises key gs θ st := by
  induction gs generalizing θ st with
  | nil => rfl
  | cons g gs ih =>
    unfold Problem.provePremises
    simp only [h.params, h.prove, ih]

theorem Problem.Alike.report (h : pb.Alike pb') (goal : Pattern) (st : State) :
    pb'.report goal st = pb.report goal st := by
  unfold Problem.report Problem.explain
  simp only [h.params, h.rules, h.prove, h.provePremises]

/-- Backward chaining looks at confidences beside its questions. -/
theorem alike_of_confidence {d d' : Deadline} (h : s.Alike s')
    (hconf : ∀ id, (Problem.mk s' rules params d').confidence id =
      (Problem.mk s rules params d).confidence id) (hpoll : d'.poll = d.poll) :
    Problem.Alike ⟨s, rules, params, d⟩ ⟨s', rules, params, d'⟩ where
  facts := by
    funext goal
    unfold Problem.facts matchesOf
    simp only [hconf, h.matchesFrom]
  byFact := by
    funext goal θ depth m
    unfold Problem.byFact extend
    rw [hconf, h.toPattern]
  rules := rfl
  params := rfl
  poll := by
    unfold State.poll
    rw [hpoll]

theorem chain_congr {goal : Pattern} (h : s.Alike s')
    (hconf : ∀ id, (Problem.mk s' rules params ⟨params.timeout, clock'⟩).confidence id =
      (Problem.mk s rules params ⟨params.timeout, clock⟩).confidence id)
    (hpoll : Deadline.poll ⟨params.timeout, clock'⟩ = Deadline.poll ⟨params.timeout, clock⟩) :
    chain s' rules goal params clock' = chain s rules goal params clock := by
  unfold chain
  rw [(alike_of_confidence h hconf hpoll).report]

end Backward

/-! ## Abduction -/

namespace Abduction

variable (h : s.Alike s') (hstrength : strengthOf s' = strengthOf s)
include h hstrength

theorem supports_congr (useUncertainty : Bool) (cs : List Pattern) :
    supports s' useUncertainty cs = supports s useUncertainty cs := by
  induction cs with
  | nil => rfl
  | cons c cs ih =>
    unfold supports support
    rw [ih, h.readMatches, h.toText, hstrength]

theorem confirm_congr (useUncertainty : Bool) (ps : List Pattern) (consistency : Float) :
    confirm s' useUncertainty ps consistency = confirm s useUncertainty ps consistency := by
  induction ps generalizing consistency with
  | nil => rfl
  | cons p ps ih =>
    unfold confirm
    rw [funext ih, h.readLookup, h.toText, hstrength]

theorem score_congr (useUncertainty : Bool) (hyp : Hypothesis) (θ : Substitution)
    (observation : Pattern) :
    score s' useUncertainty hyp θ observation = score s useUncertainty hyp θ observation := by
  unfold score
  simp only [supports_congr h hstrength, confirm_congr h hstrength]

theorem examine_congr (observation : Pattern) (index : Nat) (scored : List Scored)
    (cs : List Candidate) :
    examine s' params observation index scored cs =
      examine s params observation index scored cs := by
  induction cs generalizing index scored with
  | nil => rfl
  | cons c cs ih =>
    unfold examine
    simp only [score_congr h hstrength, ih]

/-- Abduction looks at strengths beside its questions. -/
theorem explain_congr (observation : Pattern) (candidates : List Candidate) :
    explain s' observation candidates params = explain s observation candidates params := by
  unfold explain
  rw [examine_congr h hstrength]

end Abduction

/-! ## Propagation -/

namespace Propagation

variable (h : s.Alike s')
  (hstrength : ∀ id, (s'.get? id).map (·.truth.strength) = (s.get? id).map (·.truth.strength))
include h hstrength

theorem priorOf_congr (f : Fact) : priorOf s' f = priorOf s f := by
  unfold priorOf
  cases f.probability with
  | some x => rfl
  | none =>
    refine bind_congr fun p => ?_
    rw [h.readLookup]
    refine bind_congr fun o => ?_
    cases o with
    | none => rfl
    | some id =>
      have hid := hstrength id
      rw [Option.bind_some, Option.bind_some]
      cases ha : s.get? id with
      | none =>
        rw [ha] at hid
        rw [Option.map_eq_none_iff.1 hid]
      | some a =>
        rw [ha] at hid
        obtain ⟨a', ha', heq⟩ := Option.map_eq_some_iff.1 hid
        rw [ha']
        dsimp only
        rw [heq]

theorem priorsOf_congr (fs : List Fact) : priorsOf s' fs = priorsOf s fs := by
  induction fs with
  | nil => rfl
  | cons f fs ih =>
    unfold priorsOf
    rw [ih, priorOf_congr h hstrength]

/-- Propagation looks at strengths beside its questions. -/
theorem reason_congr (graph : List Fact) : reason s' graph params = reason s graph params := by
  unfold reason
  rw [priorsOf_congr h hstrength]

end Propagation

/-! ## Temporal reasoning -/

namespace Temporal

theorem relateAll_congr {d d' : Deadline} (hpoll : d'.poll = d.poll) (maxSteps : Nat)
    (ps : List (Record × Record)) (done readings : Nat) :
    relateAll maxSteps d' ps done readings = relateAll maxSteps d ps done readings := by
  induction ps generalizing done readings with
  | nil => rfl
  | cons p ps ih =>
    unfold relateAll
    simp only [hpoll, ih]

/-- Temporal reasoning looks at nothing but confidences. -/
theorem reason_congr
    (hconf : confidenceOf s' params.useUncertainty = confidenceOf s params.useUncertainty)
    (hpoll : Deadline.poll ⟨params.timeout, clock'⟩ = Deadline.poll ⟨params.timeout, clock⟩)
    (facts : List Fact) (claims : List Claim) (window : Option String)
    (reference : Option Instant) :
    reason s' facts claims params window reference clock' =
      reason s facts claims params window reference clock := by
  unfold reason recordsOf recordOf
  rw [hconf]
  simp only [relateAll_congr hpoll]

end Temporal

end Credence
