import Credence.Proofs.Inference.Calendar
import Credence.Proofs.Inference.Failure
/-!
# Failures of tasks

A task is read from documents and answered against a store. With checked rules both can
only fail in ways that a tolerant batch records, unless a task of temporal reasoning
leaves the calendar.
-/

namespace Credence

open Error (Recorded)
open Reader Fields

/-- Whether a question can only fail in a recorded way: rules are checked, and temporal reasoning
stays inside the calendar. -/
def Question.Safe : Question → Prop
  | .forward _ rules => ∀ r ∈ rules.rules, r.Checked
  | .temporal facts _ window reference => Temporal.staysInside facts window reference = true
  | _ => True

/-! ## Inputs -/

namespace Engine

theorem fits_rules {fields : List (String × Value)} : rulesField.Fits fields :=
  fits_withDefault fun _ _ _ => (fits_optional (fits_list fun v _ => fits_any v)).map _

theorem fits_integers (v : Value) : Fits (integers v) := (fits_list fun v _ => fits_int v).map _

theorem fits_forwardInputs (v : Value) : Fits (forwardInputs v) :=
  Fields.fits_reader fun _ _ =>
    (fits_withDefault fun _ v _ => fits_optional (fits_integers v)).map _ |>.seq fits_rules

theorem fits_backwardInputs (v : Value) : Fits (backwardInputs v) :=
  Fields.fits_reader fun _ _ => (fits_required fun _ v _ => fits_name v).map _ |>.seq fits_rules

theorem fits_abductionInputs (v : Value) : Fits (abductionInputs v) :=
  Fields.fits_reader fun _ _ =>
    (fits_required fun _ v _ => fits_name v).map _
      |>.seq (fits_withDefault fun _ _ _ => fits_optional (fits_list fun v _ => fits_any v))
      |>.seq fits_rules
      |>.seq (fits_withDefault fun _ v _ => fits_bool v)

theorem fits_analogyInputs (v : Value) : Fits (analogyInputs v) :=
  Fields.fits_reader fun _ _ =>
    (fits_required fun _ v _ => fits_integers v).map _
      |>.seq (fits_required fun _ v _ => fits_integers v)
      |>.seq (fits_withDefault fun _ v _ => fits_unit v)

theorem fits_propagationInputs (v : Value) : Fits (propagationInputs v) :=
  Fields.fits_reader fun _ _ =>
    fits_required fun _ _ _ => fits_list fun v _ => Propagation.Fact.fits_reader v

/-- Whether no written fact has a duration below the least span. -/
def durationsFit (inputs : Value) : Bool :=
  ((inputs.field? "facts").getD .null).elements.all Temporal.durationFits

theorem durationFits_of_mem {v : Value} (h : durationsFit v = true)
    {fields : List (String × Value)} (hv : v = .record fields) {n : String} {facts : Value}
    (hfacts : present ["facts"] fields = some (n, facts)) :
    ∀ fact ∈ facts.elements, Temporal.durationFits fact = true := by
  have hlookup : Value.lookup "facts" fields = some facts ∧ "facts" = n := by
    simpa [present] using hfacts
  have hfield : v.field? "facts" = some facts := by
    rw [hv]
    exact hlookup.1
  unfold durationsFit at h
  rw [hfield] at h
  exact List.all_eq_true.1 h

theorem fits_temporalInputs {v : Value} (h : durationsFit v = true) : Fits (temporalInputs v) :=
  Fields.fits_reader fun _ hv =>
    (fits_required fun _ _ hfacts => fits_list fun item hitem =>
        Temporal.Fact.fits_reader (durationFits_of_mem h hv hfacts item hitem)).map _
      |>.seq (fits_withDefault fun _ _ _ => fits_list fun v _ => Temporal.Claim.fits_reader v)
      |>.seq (fits_withDefault fun _ v _ => fits_optional (fits_text v))
      |>.seq (fits_withDefault fun _ v _ => fits_optional (Instant.fits_reader v))

/-- The inputs of temporal reasoning are read as a question of that kind. -/
theorem temporal_of_temporalInputs {v : Value} {q : Question} (h : temporalInputs v = .ok q) :
    ∃ facts claims window reference, q = .temporal facts claims window reference := by
  obtain ⟨fields, -, hfields⟩ := exists_of_reader h
  obtain ⟨_, reference, hthree, -, rfl⟩ := exists_of_seq hfields
  obtain ⟨_, window, htwo, -, rfl⟩ := exists_of_seq hthree
  obtain ⟨_, claims, hone, -, rfl⟩ := exists_of_seq htwo
  obtain ⟨facts, -, rfl⟩ := exists_of_map hone
  exact ⟨facts, claims, window, reference, rfl⟩

/-! ## Tasks -/

/-- Whether everything that inputs of a strategy ask to compute can be represented; only those of
temporal reasoning ask for spans and instants. -/
def inputsFit (inputs : Value) : Strategy → Bool
  | .temporal => durationsFit inputs &&
    match temporalInputs inputs with
    | .ok (.temporal facts _ window reference) => Temporal.staysInside facts window reference
    | _ => true
  | _ => true

variable {e : Engine}

theorem failsIn_rulesOr (e : Engine) (v : Value) : FailsIn Recorded (e.rulesOr v) := by
  unfold rulesOr
  split
  · exact failsIn_ok _
  · exact RuleBase.failsIn_ofValues _

theorem checked_of_rulesOr (h : ∀ r ∈ e.rules.rules, r.Checked) {v : Value} {rules : RuleBase}
    (hv : e.rulesOr v = .ok rules) : ∀ r ∈ rules.rules, r.Checked := by
  unfold rulesOr at hv
  split at hv
  · cases hv
    exact h
  · exact RuleBase.checked_of_ofValues hv

theorem failsIn_paramsOr (e : Engine) (v : Value) : FailsIn Recorded (e.paramsOr v) := by
  unfold paramsOr
  split
  · exact failsIn_ok _
  · exact Params.failsIn_ofValue _

theorem failsIn_question (e : Engine) {inputs : Value} {strategy : Strategy}
    (h : inputsFit inputs strategy = true) : FailsIn Recorded (e.question inputs strategy) := by
  unfold question
  split
  · refine (failsIn_fit _ (fits_forwardInputs inputs)).bind fun i _ => ?_
    exact (failsIn_rulesOr e _).bind fun _ _ => failsIn_ok _
  · refine (failsIn_fit _ (fits_backwardInputs inputs)).bind fun i _ => ?_
    exact (failsIn_rulesOr e _).bind fun _ _ => failsIn_ok _
  · refine (failsIn_fit _ (fits_abductionInputs inputs)).bind fun i _ => ?_
    dsimp only
    split
    · exact (failsIn_rulesOr e _).bind fun _ _ => failsIn_ok _
    · exact failsIn_ok _
  · exact (failsIn_fit _ (fits_analogyInputs inputs)).bind fun i _ => failsIn_ok _
  · refine (failsIn_fit _ (fits_propagationInputs inputs)).bind fun facts _ => ?_
    exact (Propagation.failsIn_checkGraph facts).bind fun _ _ => failsIn_ok _
  · exact failsIn_fit _ (fits_temporalInputs (Bool.and_eq_true_iff.1 h).1)

theorem safe_of_question (hrules : ∀ r ∈ e.rules.rules, r.Checked) {inputs : Value}
    {strategy : Strategy} (h : inputsFit inputs strategy = true) {q : Question}
    (hq : e.question inputs strategy = .ok q) : q.Safe := by
  unfold question at hq
  split at hq
  · obtain ⟨i, -, hq⟩ := bind_eq_ok hq
    obtain ⟨rules, hread, hq⟩ := bind_eq_ok hq
    cases hq
    exact checked_of_rulesOr hrules hread
  · obtain ⟨i, -, hq⟩ := bind_eq_ok hq
    obtain ⟨rules, -, hq⟩ := bind_eq_ok hq
    cases hq
    trivial
  · obtain ⟨i, -, hq⟩ := bind_eq_ok hq
    dsimp only at hq
    split at hq
    · obtain ⟨rules, -, hq⟩ := bind_eq_ok hq
      cases hq
      trivial
    · cases hq
      trivial
  · obtain ⟨i, -, hq⟩ := bind_eq_ok hq
    cases hq
    trivial
  · obtain ⟨facts, -, hq⟩ := bind_eq_ok hq
    obtain ⟨facts, -, hq⟩ := bind_eq_ok hq
    cases hq
    trivial
  · obtain ⟨hdurations, hinside⟩ := Bool.and_eq_true_iff.1 h
    have hread := ok_of_fit hq
    obtain ⟨facts, claims, window, reference, rfl⟩ := temporal_of_temporalInputs hread
    rw [hread] at hinside
    exact hinside

/-- The inputs that stand for missing ones. -/
def givenInputs (inputs : Value) : Value :=
  match inputs with
  | .null => .record []
  | v => v

theorem task_eq (e : Engine) (strategy params inputs : Value) :
    e.task strategy params inputs = (do
      let strategy ← Strategy.ofValue strategy
      let params ← e.paramsOr params
      let question ← e.question (givenInputs inputs) strategy
      return ⟨question, params⟩) := by
  cases inputs <;> rfl

theorem failsIn_task (e : Engine) {strategy : Value} (params : Value) {inputs : Value}
    (h : ∀ st, Strategy.ofValue strategy = .ok st → inputsFit (givenInputs inputs) st = true) :
    FailsIn Recorded (e.task strategy params inputs) := by
  rw [task_eq]
  refine (Strategy.failsIn_ofValue strategy).bind fun st hst => ?_
  refine (failsIn_paramsOr e params).bind fun p _ => ?_
  exact (failsIn_question e (h st hst)).bind fun _ _ => failsIn_ok _

theorem safe_of_task (hrules : ∀ r ∈ e.rules.rules, r.Checked) {strategy params inputs : Value}
    (h : ∀ st, Strategy.ofValue strategy = .ok st → inputsFit (givenInputs inputs) st = true)
    {t : Task} (ht : e.task strategy params inputs = .ok t) : t.question.Safe := by
  rw [task_eq] at ht
  obtain ⟨st, hst, ht⟩ := bind_eq_ok ht
  obtain ⟨p, -, ht⟩ := bind_eq_ok ht
  obtain ⟨q, hq, ht⟩ := bind_eq_ok ht
  cases ht
  exact safe_of_question hrules (h st hst) hq

end Engine

/-! ## Answers -/

theorem Task.confined_perform {t : Task} (h : t.question.Safe) (clock : Clock) (s : Store) :
    Confined Recorded (t.perform clock s) := by
  obtain ⟨question, params⟩ := t
  unfold perform
  cases question with
  | forward premises rules =>
    have hpremises : FailsIn Recorded (premises.mapM s.premises) := by
      cases premises with
      | none => exact failsIn_ok _
      | some vs => exact (s.failsIn_premises vs).map some
    have hrules : ∀ r ∈ rules.inOrder, r.Checked := fun r hr => h r (RuleBase.mem_inOrder.1 hr).1
    refine (confined_lift hpremises).bind fun ids => ?_
    exact (confined_lift (Forward.failsIn_chain s hrules ids _ _)).bind fun _ => confined_pure _
  | backward goal rules =>
    refine (confined_lift goal.failsIn_pattern).bind fun goal => ?_
    exact (Backward.confined_chain s rules goal _ _).bind fun _ => confined_pure _
  | abduction observation candidates =>
    refine (confined_lift observation.failsIn_pattern).bind fun observation => ?_
    exact (Abduction.confined_explain s observation candidates _).bind fun _ => confined_pure _
  | analogy source target floor =>
    refine (confined_lift (s.failsIn_domain source)).bind fun sources => ?_
    refine (confined_lift (s.failsIn_domain target)).bind fun targets => ?_
    exact (confined_lift (Analogy.failsIn_reason s sources targets _ _)).bind fun _ =>
      confined_pure _
  | propagation graph =>
    exact (Propagation.confined_reason s graph _).bind fun _ => confined_pure _
  | temporal facts claims window reference =>
    exact (confined_lift (Temporal.failsIn_reason s claims params h clock)).bind fun _ =>
      confined_pure _

theorem Engine.confined_infer {e : Engine} (hrules : ∀ r ∈ e.rules.rules, r.Checked)
    {strategy : Value} (params : Value) {inputs : Value}
    (h : ∀ st, Strategy.ofValue strategy = .ok st → inputsFit (givenInputs inputs) st = true)
    (s : Store) : Confined Recorded (e.infer strategy params inputs s) := by
  unfold infer answer
  cases ht : e.task strategy params inputs with
  | error error => exact fun _ => failsIn_error (failsIn_task e params h error ht)
  | ok t => exact Task.confined_perform (safe_of_task hrules h ht) e.clock s

end Credence
