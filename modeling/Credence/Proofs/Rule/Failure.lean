import Credence.Engine.Basic
import Credence.Inference.Propagation
import Credence.Proofs.Document.Fitting
import Credence.Proofs.Inference.Derivation
import Credence.Proofs.Store.Failure
import Credence.Strategy
/-!
# Failures of descriptions

A description of a rule, a hypothesis, parameters or facts that does not fit is reported
under the name of what it should be, and one that fits may still be refused: for its
patterns, its reliability or its dependencies. A tolerant batch records all of these.
-/

namespace Credence

open Error (Recorded)

theorem failsIn_fit {α : Type} (what : String) {r : Reader α} {v : Value} (h : Fits (r v)) :
    FailsIn Recorded (fit what r v) := by
  refine h.mapError fun d hd => ?_
  cases d with
  | misfit issues => rfl
  | overflow => exact hd.elim

theorem ok_of_fit {α : Type} {what : String} {r : Reader α} {v : Value} {a : α}
    (h : fit what r v = .ok a) : r v = .ok a := mapError_eq_ok_iff.1 h

theorem failsIn_parsePattern (text : String) : FailsIn Recorded (parsePattern text) :=
  FailsIn.mapError (P := fun _ => True) (fun _ _ => trivial) fun _ _ => rfl

open Reader Fields

/-! ## Rules -/

theorem RuleSpec.fits_reader (v : Value) : Fits (reader v) :=
  Fields.fits_reader fun _ _ =>
    (fits_required fun _ v _ => fits_name v).map _
      |>.seq (fits_required fun _ _ _ => fits_guard (fits_list fun v _ => fits_text v) _ _)
      |>.seq (fits_required fun _ v _ => fits_text v)
      |>.seq (fits_withDefault fun _ v _ => fits_unit v)
      |>.seq (fits_withDefault fun _ v _ => fits_optional (fits_text v))
      |>.seq (fits_withDefault fun _ v _ => fits_int v)
      |>.seq (fits_withDefault fun _ v _ => fits_bool v)

namespace Rule

theorem failsIn_check (r : Rule) : FailsIn Recorded r.check := by
  unfold check
  dsimp only
  repeat' split
  all_goals first | exact failsIn_ok _ | exact failsIn_error rfl

theorem failsIn_ofValue (v : Value) : FailsIn Recorded (ofValue v) := by
  refine (failsIn_fit _ (RuleSpec.fits_reader v)).bind fun spec _ => ?_
  refine (failsIn_mapM fun text _ => failsIn_parsePattern text).bind fun premises _ => ?_
  exact (failsIn_parsePattern _).bind fun conclusion _ => failsIn_check _

theorem checked_of_ofValue {v : Value} {r : Rule} (h : ofValue v = .ok r) : r.Checked := by
  obtain ⟨spec, -, h⟩ := bind_eq_ok h
  obtain ⟨premises, -, h⟩ := bind_eq_ok h
  obtain ⟨conclusion, -, h⟩ := bind_eq_ok h
  obtain ⟨hchecked, rfl⟩ := checked_of_check h
  exact hchecked

end Rule

namespace RuleBase

theorem failsIn_ofValues (vs : List Value) : FailsIn Recorded (ofValues vs) :=
  (failsIn_mapM fun v _ => Rule.failsIn_ofValue v).map _

theorem checked_of_ofValues {vs : List Value} {base : RuleBase} (h : ofValues vs = .ok base) :
    ∀ r ∈ base.rules, r.Checked := by
  obtain ⟨rules, hrules, rfl⟩ := map_eq_ok h
  intro r hr
  obtain ⟨v, -, hv⟩ := exists_of_mem_forall₂ (forall₂_of_mapM hrules) hr
  exact Rule.checked_of_ofValue hv

end RuleBase

/-! ## Hypotheses and parameters -/

theorem HypothesisSpec.fits_reader (v : Value) : Fits (reader v) :=
  Fields.fits_reader fun _ _ =>
    (fits_required fun _ v _ => fits_name v).map _
      |>.seq (fits_required fun _ v _ => fits_text v)
      |>.seq (fits_required fun _ v _ => fits_text v)
      |>.seq (fits_withDefault fun _ v _ => fits_unit v)
      |>.seq (fits_withDefault fun _ _ _ => fits_list fun v _ => fits_text v)

theorem Hypothesis.failsIn_ofValue (v : Value) : FailsIn Recorded (ofValue v) := by
  refine (failsIn_fit _ (HypothesisSpec.fits_reader v)).bind fun spec _ => ?_
  refine (failsIn_parsePattern _).bind fun statement _ => ?_
  refine (failsIn_parsePattern _).bind fun predicts _ => ?_
  exact (failsIn_mapM fun text _ => failsIn_parsePattern text).bind fun requires _ => failsIn_ok _

theorem Params.fits_reader (v : Value) : Fits (reader v) :=
  Fields.fits_reader fun _ _ =>
    (fits_withDefault fun _ v _ => fits_atLeast 1 v).map _
      |>.seq (fits_withDefault fun _ v _ => fits_unit v)
      |>.seq (fits_withDefault fun _ v _ => fits_atLeast 1 v)
      |>.seq (fits_withDefault fun _ v _ => fits_bool v)
      |>.seq (fits_withDefault fun _ v _ => fits_optional (fits_guard (fits_float v) _ _))

theorem Params.failsIn_ofValue (v : Value) : FailsIn Recorded (ofValue v) := by
  unfold ofValue
  split
  · exact failsIn_ok _
  · exact failsIn_fit _ (Params.fits_reader v)

theorem Strategy.failsIn_ofValue (v : Value) : FailsIn Recorded (ofValue v) := by
  unfold ofValue
  repeat' split
  all_goals first | exact failsIn_ok _ | exact failsIn_error rfl

/-! ## Dependent facts -/

namespace Propagation

theorem Conditional.fits_reader (v : Value) : Fits (reader v) :=
  Fields.fits_reader fun _ _ =>
    (fits_required fun _ v _ => fits_unit v).map _
      |>.seq (fits_withDefault fun _ v _ => fits_unit v)

theorem Fact.fits_reader (v : Value) : Fits (reader v) :=
  Fields.fits_reader fun _ _ =>
    (fits_required fun _ v _ => fits_name v).map _
      |>.seq (fits_withDefault fun _ v _ => fits_optional (fits_unit v))
      |>.seq (fits_withDefault fun _ _ _ => fits_list fun v _ => fits_text v)
      |>.seq (fits_withDefault fun _ v _ => fits_optional (Conditional.fits_reader v))

theorem Fact.failsIn_check (declared : List String) (f : Fact) :
    FailsIn Recorded (f.check declared) := by
  unfold check
  repeat' split
  all_goals first | exact failsIn_ok _ | exact failsIn_error rfl

theorem failsIn_checkGraph (fs : List Fact) : FailsIn Recorded (checkGraph fs) := by
  unfold checkGraph
  dsimp only
  split
  · exact failsIn_error rfl
  · exact (failsIn_forM fun f _ => f.failsIn_check _).bind fun _ _ => failsIn_ok fs

end Propagation

end Credence
