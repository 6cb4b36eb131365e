import Credence.Proofs.Store.Alike
import Credence.Proofs.Store.Rating
/-!
# Stores up to the count of lookups

Asking a question changes nothing but the count of lookups. An operation that fails
leaves no more than that behind: it writes once, and fails before that or not at all.
And no operation depends on the count, so over stores that differ in it it has the same
outcome and leaves stores that again differ in nothing else.
-/

namespace Credence.Store

/-! ## Stores up to the count of lookups -/

/-- Stores that differ in the number of lookups at most. -/
def Recounted (s s' : Store) : Prop := ∃ n, s' = s.withLookups n

variable {s s' : Store} {α : Type}

theorem recounted_refl (s : Store) : Recounted s s := ⟨s.tally.lookups, rfl⟩

theorem recounted_withLookups (s : Store) (n : Nat) : Recounted s (s.withLookups n) := ⟨n, rfl⟩

theorem Recounted.symm (h : Recounted s s') : Recounted s' s := by
  obtain ⟨n, rfl⟩ := h
  exact ⟨s.tally.lookups, rfl⟩

theorem Recounted.trans {s'' : Store} (h : Recounted s s') (h' : Recounted s' s'') :
    Recounted s s'' := by
  obtain ⟨n, rfl⟩ := h
  obtain ⟨m, rfl⟩ := h'
  exact ⟨m, rfl⟩

theorem lasting_recounted : Lasting id Recounted where
  twin := by
    rintro s _ ⟨n, rfl⟩
    exact twin_withLookups s n
  inserted := by
    rintro s _ ⟨n, rfl⟩ form t written
    cases form <;> exact ⟨n, rfl⟩
  retruth := by
    rintro s _ ⟨n, rfl⟩ id t
    exact ⟨n, rfl⟩

/-! ## Questions -/

/-- A question counts its lookups and leaves the rest as it is. -/
theorem run_question (question : Store → Reading α) (s : Store) :
    (Reading.run question).run.run s =
      ((StateT.run (ExceptT.run (question s)) 0).1,
        s.withLookups (s.tally.lookups + (StateT.run (ExceptT.run (question s)) 0).2)) := by
  unfold Reading.run
  rw [run_get_bind]
  generalize StateT.run (ExceptT.run (question s)) 0 = r
  obtain ⟨a | a, n⟩ := r <;> rfl

theorem alongside_question {question : Store → Reading α} (h : Recounted s s')
    (hsame : question s' = question s) : Alongside Recounted (Reading.run question) s s' := by
  constructor <;> rw [run_question, run_question, hsame]
  exact (recounted_withLookups s _).symm.trans (h.trans (recounted_withLookups s' _))

/-! ## Failures -/

/-- An operation over the store `u` that leaves the store `s` behind if it fails, up to the count of
lookups. -/
def FailsTo (s : Store) (x : StoreM α) (u : Store) : Prop :=
  ∀ error u', x.run.run u = (.error error, u') → Recounted s u'

section

variable {β : Type} {u : Store} {x : StoreM α} {f : α → StoreM β}

theorem failsTo_of_same {r : Except Error α} (h : Recounted s u) (hrun : x.run.run u = (r, u)) :
    FailsTo s x u := by
  intro error u' hfail
  rw [hrun] at hfail
  cases hfail
  exact h

theorem failsTo_of_ok {a : α} {v : Store} (hrun : x.run.run u = (.ok a, v)) : FailsTo s x u := by
  intro error u' hfail
  rw [hrun] at hfail
  cases hfail

theorem failsTo_lift (h : Recounted s u) (r : Except Error α) :
    FailsTo s (liftM r : StoreM α) u :=
  failsTo_of_same h (run_lift u r)

theorem FailsTo.bind (hx : FailsTo s x u)
    (hf : ∀ a v, x.run.run u = (.ok a, v) → FailsTo s (f a) v) : FailsTo s (x >>= f) u := by
  intro error u' hfail
  rw [run_bind] at hfail
  cases hrun : x.run.run u with
  | mk r v =>
    rw [hrun] at hfail
    cases r with
    | error e =>
      cases hfail
      exact hx _ _ hrun
    | ok a => exact hf a v hrun _ _ hfail

theorem failsTo_lift_bind (h : Recounted s u) {r : Except Error α}
    (hf : ∀ a, r = .ok a → FailsTo s (f a) u) : FailsTo s (liftM r >>= f) u := by
  refine (failsTo_lift h r).bind fun a v hrun => ?_
  rw [run_lift] at hrun
  cases hrun
  exact hf a rfl

theorem failsTo_get_bind {f : Store → StoreM β} (hf : FailsTo s (f u) u) :
    FailsTo s (get >>= f) u :=
  hf

theorem failsTo_question (h : Recounted s u) (question : Store → Reading α) :
    FailsTo s (Reading.run question) u := by
  intro error u' hfail
  rw [run_question] at hfail
  obtain ⟨-, rfl⟩ := Prod.mk.inj hfail
  exact h.trans (recounted_withLookups u _)

theorem recounted_of_question {question : Store → Reading α} {a : α} {v : Store}
    (hrun : (Reading.run question).run.run u = (.ok a, v)) : Recounted u v := by
  rw [run_question] at hrun
  obtain ⟨-, rfl⟩ := Prod.mk.inj hrun
  exact recounted_withLookups u _

end

theorem failsTo_addNode (k : NodeKind) (name : String) (t : Truth) (s : Store) :
    FailsTo s (addNode k name t) s := by
  have hrun := run_addNode s k name t
  split at hrun
  · exact failsTo_of_same (recounted_refl s) hrun
  · exact failsTo_of_ok hrun

theorem failsTo_addLinkWritten (k : LinkKind) (out : List AtomId) (written : List Value)
    (t : Truth) (s : Store) : FailsTo s (addLinkWritten k out written t) s := by
  have hrun := run_addLinkWritten s k out written t
  split at hrun
  · split at hrun
    · exact failsTo_of_same (recounted_refl s) hrun
    · exact failsTo_of_ok hrun
  · exact failsTo_of_same (recounted_refl s) hrun

theorem failsTo_add (kind name : Value) (outgoing : List Value) (truth : Value) (s : Store) :
    FailsTo s (add kind name outgoing truth) s := by
  have hs := recounted_refl s
  unfold add
  dsimp only
  split
  · exact failsTo_of_same hs rfl
  · split
    · exact failsTo_of_same hs rfl
    · split
      · split
        · exact failsTo_of_same hs rfl
        · exact failsTo_lift_bind hs fun t _ => failsTo_addNode _ _ t s
      · exact failsTo_of_same hs rfl
  · split
    · exact failsTo_of_same hs rfl
    · split
      · refine failsTo_lift_bind hs fun t _ => failsTo_get_bind ?_
        exact failsTo_lift_bind hs fun out _ => failsTo_addLinkWritten _ out _ t s
      · exact failsTo_of_same hs rfl

theorem failsTo_setTruthValue (ref truth : Value) (s : Store) :
    FailsTo s (setTruthValue ref truth) s := by
  have hs := recounted_refl s
  unfold setTruthValue
  refine failsTo_lift_bind hs fun t _ => failsTo_get_bind (failsTo_lift_bind hs fun id _ => ?_)
  have hrun := run_setTruth s id t
  split at hrun
  · exact failsTo_of_same hs hrun
  · exact failsTo_of_ok hrun

/-- A truth value is replaced in the atom that is referred to. -/
theorem exists_of_setTruthValue {ref truth : Value} {old : Truth}
    (h : (setTruthValue ref truth).run.run s = (.ok old, s')) :
    ∃ id a t, s.resolve ref = .ok id ∧ s.get? id = some a ∧ s' = s.retruth id t := by
  unfold setTruthValue at h
  rw [run_lift_bind] at h
  split at h
  · next t _ =>
    rw [run_get_bind, run_lift_bind] at h
    split at h
    · next id hid =>
      rw [run_setTruth] at h
      split at h
      · cases h
      · next a ha =>
        cases h
        exact ⟨id, a, t, hid, ha, rfl⟩
    · cases h
  · cases h

theorem atomOf_of_resolve {v : Value} {id : AtomId} {a : Atom} (hid : s.resolve v = .ok id)
    (ha : s.get? id = some a) : s.atomOf v = .ok a := by
  unfold atomOf
  simp only [hid, bind, Except.bind, ha]
  rfl

/-- A truth value that was replaced can be read again. -/
theorem exists_atomOf_of_setTruthValue {ref truth : Value} {old : Truth}
    (h : (setTruthValue ref truth).run.run s = (.ok old, s')) : ∃ a, s'.atomOf ref = .ok a := by
  obtain ⟨id, a, t, hid, ha, rfl⟩ := exists_of_setTruthValue h
  have hcontains : (s.retruth id t).contains = s.contains := by
    funext id'
    unfold contains
    rw [get?_retruth, Option.isSome_map]
  have hresolve : (s.retruth id t).resolve ref = .ok id := by
    rw [← hid]
    unfold resolve locate find?
    rw [hcontains]
  have hget := get?_retruth s id t id
  rw [ha] at hget
  exact ⟨_, atomOf_of_resolve hresolve hget⟩

/-! ## Outcomes -/

theorem alongside_lift_bind {R : Store → Store → Prop} {β : Type} {r : Except Error α}
    {f : α → StoreM β} (h : R s s') (hf : ∀ a, r = .ok a → Alongside R (f a) s s') :
    Alongside R (liftM r >>= f) s s' := by
  refine (Alongside.same h (run_lift s r) (run_lift s' r)).bind fun a u u' hrun hrun' _ => ?_
  rw [run_lift] at hrun hrun'
  cases hrun
  cases hrun'
  exact hf a rfl

theorem alongside_add (h : Recounted s s') (kind name : Value) (outgoing : List Value)
    (truth : Value) : Alongside Recounted (add kind name outgoing truth) s s' := by
  unfold add
  dsimp only
  split
  · exact alongside_throw h _
  · split
    · exact .same h rfl rfl
    · split
      · split
        · exact .same h rfl rfl
        · exact alongside_lift_bind h fun t _ => lasting_recounted.addNode h _ _ t
      · exact .same h rfl rfl
  · split
    · exact .same h rfl rfl
    · split
      · refine alongside_lift_bind h fun t _ => ?_
        obtain ⟨n, rfl⟩ := h
        refine alongside_get rfl (alongside_lift_bind ⟨n, rfl⟩ fun out _ => ?_)
        exact lasting_recounted.addLinkWritten ⟨n, rfl⟩ _ out _ t
      · exact .same h rfl rfl

theorem alongside_setTruthValue (h : Recounted s s') (ref truth : Value) :
    Alongside Recounted (setTruthValue ref truth) s s' := by
  unfold setTruthValue
  refine alongside_lift_bind h fun t _ => ?_
  obtain ⟨n, rfl⟩ := h
  refine alongside_get rfl (alongside_lift_bind ⟨n, rfl⟩ fun id _ => ?_)
  have hget : (s.withLookups n).get? id = s.get? id := rfl
  constructor <;> rw [run_setTruth, run_setTruth, hget]
  · cases s.get? id <;> rfl
  · cases s.get? id <;> exact ⟨n, rfl⟩

end Credence.Store
