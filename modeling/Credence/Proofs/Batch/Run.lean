import Credence.Batch.Run
import Credence.Proofs.Store.Change
/-!
# Runs of a batch

A batch is carried out request by request: a request that succeeds, or whose failure is
recorded, makes one entry and leaves its store to the requests after it; any other
failure ends the batch.
-/

namespace Credence.Batch

open Store

variable {e : Engine} {mode : BatchMode} {entries : List Entry} {s s' : Store}

theorem run_tryCatch {α : Type} (x : StoreM α) (handle : Error → StoreM α) (s : Store) :
    (tryCatch x handle).run.run s =
      match x.run.run s with
      | (.ok a, u) => (.ok a, u)
      | (.error error, u) => (handle error).run.run u := by
  unfold ExceptT.run StateT.run
  simp only [tryCatch, tryCatchThe, MonadExceptOf.tryCatch, ExceptT.tryCatch, ExceptT.mk, bind,
    StateT.bind]
  cases x s with
  | mk r u => cases r <;> rfl

/-- Whether a failure is recorded in a mode. -/
def records (mode : BatchMode) (error : Error) : Bool := mode = .tolerant && error.isRecorded

/-- The run of the other requests with an entry for the first one. -/
def resume (entry : Entry) (rest : Except Error (List Entry) × Store) :
    Except Error (List Entry) × Store :=
  (rest.1.map (entry :: ·), rest.2)

theorem runFrom_cons (e : Engine) (mode : BatchMode) (index : Nat) (request : Value)
    (requests : List Value) (s : Store) :
    (runFrom e mode index (request :: requests)).run.run s =
      match (e.execute request).run.run s with
      | (.ok v, u) => resume (.done v) ((runFrom e mode (index + 1) requests).run.run u)
      | (.error error, u) =>
        if records mode error then
          resume (.failed error index) ((runFrom e mode (index + 1) requests).run.run u)
        else (.error error, u) := by
  have hrest : ∀ entry u, (do
      let entries ← runFrom e mode (index + 1) requests
      return entry :: entries : StoreM (List Entry)).run.run u =
        resume entry ((runFrom e mode (index + 1) requests).run.run u) := by
    intro entry u
    rw [run_bind]
    generalize (runFrom e mode (index + 1) requests).run.run u = r
    obtain ⟨error | entries, v⟩ := r <;> rfl
  rw [runFrom, run_bind, run_tryCatch, map_eq_pure_bind, run_bind]
  generalize (e.execute request).run.run s = r
  obtain ⟨error | v, u⟩ := r
  · dsimp only
    rw [show (decide (mode = .tolerant) && error.isRecorded) = records mode error from rfl]
    cases records mode error with
    | false => rfl
    | true => exact hrest (.failed error index) u
  · exact hrest (.done v) u

/-- The cases of a run that returns entries for a request and those after it. -/
theorem runFrom_cons_ok {index : Nat} {request : Value} {requests : List Value}
    (h : (runFrom e mode index (request :: requests)).run.run s = (.ok entries, s')) :
    ∃ entry rest u, entries = entry :: rest ∧
      (runFrom e mode (index + 1) requests).run.run u = (.ok rest, s') ∧
      ((∃ v, (e.execute request).run.run s = (.ok v, u) ∧ entry = .done v) ∨
        ∃ error, (e.execute request).run.run s = (.error error, u) ∧
          records mode error = true ∧ entry = .failed error index) := by
  have hresume : ∀ entry r, resume entry r = (.ok entries, s') →
      ∃ rest, entries = entry :: rest ∧ r = (.ok rest, s') := by
    rintro entry ⟨error | rest, u⟩ hr
    · cases hr
    · cases hr
      exact ⟨rest, rfl, rfl⟩
  rw [runFrom_cons] at h
  cases hrun : (e.execute request).run.run s with
  | mk r u =>
    rw [hrun] at h
    cases r with
    | ok v =>
      obtain ⟨rest, hentries, hrest⟩ := hresume _ _ h
      exact ⟨_, rest, u, hentries, hrest, .inl ⟨v, rfl, rfl⟩⟩
    | error error =>
      dsimp only at h
      split at h
      · next hrecords =>
        obtain ⟨rest, hentries, hrest⟩ := hresume _ _ h
        exact ⟨_, rest, u, hentries, hrest, .inr ⟨error, rfl, hrecords, rfl⟩⟩
      · cases h

/-- A run makes one entry for each request. -/
theorem length_of_runFrom {index : Nat} {requests : List Value}
    (h : (runFrom e mode index requests).run.run s = (.ok entries, s')) :
    entries.length = requests.length := by
  induction requests generalizing index entries s with
  | nil =>
    cases h
    rfl
  | cons request requests ih =>
    obtain ⟨entry, rest, u, rfl, hrest, -⟩ := runFrom_cons_ok h
    rw [List.length_cons, List.length_cons, ih hrest]

end Credence.Batch
