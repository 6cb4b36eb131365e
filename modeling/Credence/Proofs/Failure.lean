import Credence.Proofs.Except
import Credence.Search
/-!
# Failures of one kind

A computation whose failures all lie in a set is put together from parts of which that
is true: outcomes, actions on a state and searches alike. Nothing is said about the
results, so a part may be looked at without what comes before it.
-/

namespace Credence

variable {ε ε' α β σ : Type} {P : ε → Prop}

/-! ## Outcomes -/

/-- Whether an outcome is a result or a failure of the given kind. -/
def FailsIn (P : ε → Prop) (x : Except ε α) : Prop := ∀ e, x = .error e → P e

theorem failsIn_ok (a : α) : FailsIn P (.ok a) := fun _ h => nomatch h

theorem failsIn_error {e : ε} (h : P e) : FailsIn P (.error e : Except ε α) := by
  rintro _ ⟨⟩
  exact h

theorem FailsIn.bind {x : Except ε α} {f : α → Except ε β} (hx : FailsIn P x)
    (hf : ∀ a, x = .ok a → FailsIn P (f a)) : FailsIn P (x >>= f) := by
  cases x with
  | error e => exact failsIn_error (hx e rfl)
  | ok a => exact hf a rfl

theorem FailsIn.map {x : Except ε α} (hx : FailsIn P x) (f : α → β) : FailsIn P (x.map f) := by
  cases x with
  | error e => exact failsIn_error (hx e rfl)
  | ok a => exact failsIn_ok (f a)

theorem FailsIn.mapError {Q : ε' → Prop} {x : Except ε α} (hx : FailsIn P x) {f : ε → ε'}
    (hf : ∀ e, P e → Q (f e)) : FailsIn Q (x.mapError f) := by
  cases x with
  | error e => exact failsIn_error (hf e (hx e rfl))
  | ok a => exact failsIn_ok a

theorem failsIn_mapM {f : α → Except ε β} {xs : List α} (h : ∀ x ∈ xs, FailsIn P (f x)) :
    FailsIn P (xs.mapM f) := by
  induction xs with
  | nil => exact failsIn_ok []
  | cons x xs ih =>
    obtain ⟨hx, hxs⟩ := List.forall_mem_cons.1 h
    rw [List.mapM_cons]
    exact hx.bind fun y _ => (ih hxs).bind fun ys _ => failsIn_ok (y :: ys)

theorem failsIn_foldlM {f : β → α → Except ε β} {xs : List α}
    (h : ∀ x ∈ xs, ∀ b, FailsIn P (f b x)) (b : β) : FailsIn P (xs.foldlM f b) := by
  induction xs generalizing b with
  | nil => exact failsIn_ok b
  | cons x xs ih =>
    obtain ⟨hx, hxs⟩ := List.forall_mem_cons.1 h
    rw [List.foldlM_cons]
    exact (hx b).bind fun c _ => ih hxs c

theorem failsIn_forM {f : α → Except ε PUnit} {xs : List α} (h : ∀ x ∈ xs, FailsIn P (f x)) :
    FailsIn P (xs.forM f) := by
  induction xs with
  | nil => exact failsIn_ok ()
  | cons x xs ih =>
    obtain ⟨hx, hxs⟩ := List.forall_mem_cons.1 h
    exact hx.bind fun _ _ => ih hxs

/-! ## Actions -/

/-- Whether an action fails with failures of the given kind only, whatever the state. -/
def Confined (P : ε → Prop) (x : ExceptT ε (StateM σ) α) : Prop := ∀ s, FailsIn P (x.run.run s).1

theorem confined_pure (a : α) : Confined P (pure a : ExceptT ε (StateM σ) α) :=
  fun _ => failsIn_ok a

theorem confined_throw {e : ε} (h : P e) : Confined P (throw e : ExceptT ε (StateM σ) α) :=
  fun _ => failsIn_error h

theorem confined_lift {x : Except ε α} (h : FailsIn P x) :
    Confined P (liftM x : ExceptT ε (StateM σ) α) := by
  intro s
  cases x with
  | error e => exact failsIn_error (h e rfl)
  | ok a => exact failsIn_ok a

theorem confined_get : Confined P (get : ExceptT ε (StateM σ) σ) := fun s => failsIn_ok s

theorem confined_modify (f : σ → σ) : Confined P (modify f : ExceptT ε (StateM σ) PUnit) :=
  fun _ => failsIn_ok _

theorem Confined.bind {x : ExceptT ε (StateM σ) α} {f : α → ExceptT ε (StateM σ) β}
    (hx : Confined P x) (hf : ∀ a, Confined P (f a)) : Confined P (x >>= f) := by
  intro s
  have hs := hx s
  show FailsIn P (ExceptT.bindCont f (x.run.run s).1 (x.run.run s).2).1
  cases hrun : (x.run.run s).1 with
  | error e =>
    rw [hrun] at hs
    exact failsIn_error (hs e rfl)
  | ok a => exact hf a _

/-! ## Searches -/

namespace Search

/-- Whether a search fails with failures of the given kind only, whatever the states on its way. -/
def Confined (P : ε → Prop) : Search σ ε α → Prop
  | done => True
  | fail e => P e
  | yield _ rest => Confined P (rest ())
  | act _ rest => ∀ s, Confined P (rest s)

theorem Confined.append {x : Search σ ε α} {next : Unit → Search σ ε α} (hx : Confined P x)
    (hnext : Confined P (next ())) : Confined P (append x next) := by
  induction x with
  | done => exact hnext
  | fail e => exact hx
  | yield a rest ih => exact ih () hx
  | act f rest ih => exact fun s => ih s (hx s)

theorem Confined.bind {x : Search σ ε α} {f : α → Search σ ε β} (hx : Confined P x)
    (hf : ∀ a, Confined P (f a)) : Confined P (bind x f) := by
  induction x with
  | done => trivial
  | fail e => exact hx
  | yield a rest ih => exact (hf a).append (ih () hx)
  | act f rest ih => exact fun s => ih s (hx s)

theorem Confined.map {x : Search σ ε α} (hx : Confined P x) (f : α → β) : Confined P (map f x) := by
  induction x with
  | done => trivial
  | fail e => exact hx
  | yield a rest ih => exact ih () hx
  | act f rest ih => exact fun s => ih s (hx s)

theorem confined_ofEach {f : β → Search σ ε α} {bs : List β} (h : ∀ b ∈ bs, Confined P (f b)) :
    Confined P (ofEach f bs) := by
  induction bs with
  | nil => trivial
  | cons b bs ih =>
    obtain ⟨hb, hbs⟩ := List.forall_mem_cons.1 h
    exact hb.append (ih hbs)

theorem Confined.fold {x : Search σ ε α} (hx : Confined P x) (step : β → α → β × Bool) (acc : β)
    (s : σ) : FailsIn P (fold step x acc s).1 := by
  induction x generalizing acc s with
  | done => exact failsIn_ok acc
  | fail e => exact failsIn_error hx
  | yield a rest ih =>
    unfold Search.fold
    split
    · exact failsIn_ok _
    · exact ih () hx _ s
  | act f rest ih => exact ih (f s) (hx (f s)) acc (f s)

end Search

end Credence
