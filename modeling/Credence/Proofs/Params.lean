import Credence.Params
/-!
# Wider bounds

Two runs are compared whose parameters differ in the bounds on steps and results, or in
the time allowed, and agree in all else.
-/

namespace Credence.Params

/-- The same parameters with other bounds. -/
def widened (params : Params) (maxSteps maxResults : Nat) : Params :=
  { params with maxSteps, maxResults }

@[simp] theorem maxSteps_widened (params : Params) (m n : Nat) :
    (params.widened m n).maxSteps = m := rfl

@[simp] theorem maxResults_widened (params : Params) (m n : Nat) :
    (params.widened m n).maxResults = n := rfl

@[simp] theorem useUncertainty_widened (params : Params) (m n : Nat) :
    (params.widened m n).useUncertainty = params.useUncertainty := rfl

@[simp] theorem timeout_widened (params : Params) (m n : Nat) :
    (params.widened m n).timeout = params.timeout := rfl

end Credence.Params
