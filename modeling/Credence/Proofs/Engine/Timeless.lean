import Credence.Engine.Task
import Credence.Proofs.Inference.Alike
import Credence.Proofs.Inference.Analogy
/-!
# Answers without a time allowed

An answer does not depend on how many lookups were counted before it, and without a
time allowed it does not depend on the clock either.
-/

namespace Credence

open Store

/-- Computations go on alike if they do so with the value that they have. -/
theorem lift_bind_congr {σ α β : Type} {x : Except Error α} {f g : α → ExceptT Error (StateM σ) β}
    (h : ∀ a, x = .ok a → f a = g a) :
    (liftM x >>= f : ExceptT Error (StateM σ) β) = liftM x >>= g := by
  cases x with
  | error e => rfl
  | ok a => exact h a rfl

/-- Without a time allowed a task has one answer, whatever was counted before and whatever the clock
shows. -/
theorem Task.perform_timeless {t : Task} (ht : t.params.timeout = none) (s : Store) (n : Nat)
    (clock clock' : Clock) : t.perform clock' (s.withLookups n) = t.perform clock s := by
  obtain ⟨question, params⟩ := t
  have halike := alike_withLookups s n
  have hpoll : Deadline.poll ⟨params.timeout, clock'⟩ = Deadline.poll ⟨params.timeout, clock⟩ :=
    poll_eq_of_timeless ht clock clock'
  unfold Task.perform
  cases question with
  | forward premises rules =>
    dsimp only
    rw [show (s.withLookups n).premises = s.premises from rfl]
    refine bind_congr fun ids => ?_
    have hids : (s.withLookups n).ids = s.ids := rfl
    rw [Forward.chain_congr hids halike.toTexts rfl hpoll]
  | backward goal rules =>
    dsimp only
    refine bind_congr fun goal => ?_
    rw [Backward.chain_congr halike (fun _ => rfl) hpoll]
  | abduction observation candidates =>
    dsimp only
    refine bind_congr fun observation => ?_
    rw [Abduction.explain_congr halike rfl]
  | analogy source target floor =>
    dsimp only
    rw [show (s.withLookups n).domain = s.domain from rfl]
    refine bind_congr fun sources => bind_congr fun targets => ?_
    rw [Analogy.reason_congr halike rfl]
  | propagation graph =>
    dsimp only
    rw [Propagation.reason_congr halike fun _ => rfl]
  | temporal facts claims window reference =>
    dsimp only
    have hconf : Temporal.confidenceOf (s.withLookups n) params.useUncertainty =
      Temporal.confidenceOf s params.useUncertainty := rfl
    rw [Temporal.reason_congr hconf hpoll]

namespace Engine

/-- A task is asked under the parameters of its request. -/
theorem paramsOr_of_task {e : Engine} {strategy params inputs : Value} {t : Task}
    (h : e.task strategy params inputs = .ok t) : e.paramsOr params = .ok t.params := by
  unfold task at h
  obtain ⟨_, _, h⟩ := bind_eq_ok h
  obtain ⟨p, hp, h⟩ := bind_eq_ok h
  obtain ⟨_, _, h⟩ := bind_eq_ok h
  cases h
  exact hp

/-- A clock is read only when a task is carried out. -/
theorem task_clock (e : Engine) (clock : Clock) : { e with clock }.task = e.task := rfl

/-- A request that sets no time has one answer, whatever was counted before and whatever the clock
shows. -/
theorem infer_timeless {e : Engine} {strategy params inputs : Value}
    (ht : ∀ p, e.paramsOr params = .ok p → p.timeout = none) (s : Store) (n : Nat)
    (clock : Clock) :
    { e with clock }.infer strategy params inputs (s.withLookups n) =
      e.infer strategy params inputs s := by
  unfold infer answer
  rw [task_clock]
  exact lift_bind_congr fun t htask =>
    Task.perform_timeless (ht _ (paramsOr_of_task htask)) s n e.clock clock

end Engine

end Credence
