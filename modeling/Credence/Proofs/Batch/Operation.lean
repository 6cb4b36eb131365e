import Credence.Batch.Operation
import Credence.Proofs.Engine.Timeless
import Credence.Proofs.Store.Recounted
/-!
# What operations depend on and leave behind

None of the operations fails behind its write. None of them looks at the count of
lookups, and without a time allowed none of them depends on the clock.
-/

namespace Credence.Operation

open Store

variable {e : Engine} {s s' : Store}

/-- No operation fails behind its write. -/
theorem failsTo_perform (e : Engine) (op : Operation) (s : Store) : FailsTo s (op.perform e) s := by
  have hs := recounted_refl s
  unfold perform
  cases op with
  | addAtom kind name outgoing truth =>
    refine (failsTo_add _ _ _ _ s).bind fun id u _ => ?_
    exact failsTo_of_ok (run_pure u _)
  | queryAtoms text kind limit =>
    refine (failsTo_question hs _).bind fun found u _ => ?_
    exact failsTo_of_ok (run_pure u _)
  | patternMatch pattern limit =>
    refine (failsTo_question hs _).bind fun found u hrun => failsTo_get_bind ?_
    refine failsTo_lift_bind (recounted_of_question hrun) fun values _ => ?_
    exact failsTo_of_ok (run_pure u _)
  | getTruthValue id =>
    refine failsTo_get_bind (failsTo_lift_bind hs fun a _ => ?_)
    exact failsTo_of_ok (run_pure s _)
  | setTruthValue id truth =>
    refine (failsTo_setTruthValue _ _ s).bind fun old u hrun => failsTo_get_bind ?_
    obtain ⟨a, ha⟩ := exists_atomOf_of_setTruthValue hrun
    rw [ha]
    exact failsTo_of_ok (run_pure u _)
  | infer strategy params inputs => exact failsTo_question hs _

/-- Whether an operation sets no time. -/
def isTimeless (e : Engine) : Operation → Bool
  | infer _ params _ =>
    match e.paramsOr params with
    | .ok p => p.timeout.isNone
    | .error _ => true
  | _ => true

theorem timeout_of_isTimeless {strategy : String} {params inputs : Value}
    (h : (infer strategy params inputs).isTimeless e = true) :
    ∀ p, e.paramsOr params = .ok p → p.timeout = none := by
  intro p hp
  unfold isTimeless at h
  dsimp only at h
  rw [hp] at h
  exact Option.isNone_iff_eq_none.1 h

mutual

theorem extend_withLookups (s : Store) (n : Nat) (p : Pattern) (r : Value) (w : Spelling) :
    Spelling.extend (s.withLookups n) p r w = Spelling.extend s p r w := by
  cases p with
  | var v => rfl
  | node k name => rfl
  | link k cs =>
    unfold Spelling.extend
    rw [show (s.withLookups n).atomOf r = s.atomOf r from rfl]
    cases s.atomOf r with
    | error e => rfl
    | ok a => exact extendList_withLookups s n cs a.written w

theorem extendList_withLookups (s : Store) (n : Nat) (cs : List Pattern) (rs : List Value)
    (w : Spelling) :
    Spelling.extendList (s.withLookups n) cs rs w = Spelling.extendList s cs rs w := by
  cases cs with
  | nil =>
    unfold Spelling.extendList
    rfl
  | cons c cs =>
    cases rs with
    | nil =>
      unfold Spelling.extendList
      rfl
    | cons r rs =>
      unfold Spelling.extendList
      rw [extend_withLookups s n c r w]
      exact extendList_withLookups s n cs rs _

end

theorem findWritten_withLookups (s : Store) (n : Nat) (src : Pattern.Source)
    (limit : Option Scalar) :
    Reading.findWritten (s.withLookups n) src limit = Reading.findWritten s src limit := by
  unfold Reading.findWritten Reading.find Finding.ofMatch
  rw [(alike_withLookups s n).readMatches]
  simp only [extend_withLookups]

theorem matchValues_withLookups (s : Store) (n : Nat) (found : List Finding) :
    matchValues (s.withLookups n) found = matchValues s found := by
  unfold matchValues matchValue
  rw [(alike_withLookups s n).toText]
  rfl

/-- An operation that sets no time has one outcome over stores that differ in counts. -/
theorem alongside_perform {op : Operation} (hop : op.isTimeless e = true) (h : Recounted s s') :
    Alongside Recounted (op.perform e) s s' := by
  unfold perform
  obtain ⟨n, rfl⟩ := h
  have h := recounted_withLookups s n
  cases op with
  | addAtom kind name outgoing truth =>
    refine (alongside_add h _ _ _ _).bind fun id u u' _ _ hu => ?_
    obtain ⟨m, rfl⟩ := hu
    exact alongside_get rfl (alongside_pure ⟨m, rfl⟩ _)
  | queryAtoms text kind limit =>
    exact (alongside_question h rfl).bind fun found u u' _ _ hu => alongside_pure hu _
  | patternMatch pattern limit =>
    have hfind := findWritten_withLookups s n (.text pattern) (some (.ofNat limit))
    refine (alongside_question h hfind).bind fun found u u' _ _ hu => ?_
    obtain ⟨m, rfl⟩ := hu
    refine alongside_get (by rw [matchValues_withLookups]) ?_
    exact alongside_lift_bind ⟨m, rfl⟩ fun values _ => alongside_pure ⟨m, rfl⟩ _
  | getTruthValue id =>
    exact alongside_get rfl (alongside_lift_bind h fun a _ => alongside_pure h _)
  | setTruthValue id truth =>
    refine (alongside_setTruthValue h _ _).bind fun old u u' _ _ hu => ?_
    obtain ⟨m, rfl⟩ := hu
    exact alongside_get rfl (alongside_lift_bind ⟨m, rfl⟩ fun a _ => alongside_pure ⟨m, rfl⟩ _)
  | infer strategy params inputs =>
    exact alongside_question h
      (Engine.infer_timeless (timeout_of_isTimeless hop) s n e.clock)

/-- Without a time a clock makes no difference. -/
theorem perform_clock {op : Operation} (hop : op.isTimeless e = true) (clock : Clock) :
    op.perform { e with clock } = op.perform e := by
  cases op with
  | infer strategy params inputs =>
    have hsame : { e with clock }.infer (.text strategy) params inputs =
        e.infer (.text strategy) params inputs :=
      funext fun s => Engine.infer_timeless (timeout_of_isTimeless hop) s s.tally.lookups clock
    unfold perform
    dsimp only
    rw [hsame]
  | _ => rfl

end Credence.Operation
