import Credence.Proofs.Batch.Operation
import Credence.Proofs.Batch.Run
/-!
# Batches without the requests that fail

A request that fails leaves no trace that a later one could see. So the requests that a
tolerant batch carried out have the same outcome as a strict batch of their own, and
the stores of both batches differ in the count of lookups at most.
-/

namespace Credence

open Store

variable {e : Engine} {s s' : Store}

/-! ## Requests -/

/-- Whether a request sets no time, neither by itself nor with the parameters of the engine. -/
def Engine.isTimeless (e : Engine) (request : Value) : Bool :=
  match Operation.ofValue request with
  | .ok op => op.isTimeless e
  | .error _ => true

theorem Engine.isTimeless_of_ofValue {request : Value} {op : Operation}
    (h : e.isTimeless request = true) (hop : Operation.ofValue request = .ok op) :
    op.isTimeless e = true := by
  unfold Engine.isTimeless at h
  rwa [hop] at h

theorem Engine.failsTo_execute (e : Engine) (request : Value) (s : Store) :
    FailsTo s (e.execute request) s :=
  failsTo_lift_bind (recounted_refl s) fun op _ => op.failsTo_perform e s

theorem Engine.alongside_execute {request : Value} (h : e.isTimeless request = true)
    (hs : Recounted s s') : Alongside Recounted (e.execute request) s s' :=
  alongside_lift_bind hs fun _ hop => Operation.alongside_perform (isTimeless_of_ofValue h hop) hs

theorem Engine.execute_clock {request : Value} (h : e.isTimeless request = true) (clock : Clock) :
    { e with clock }.execute request = e.execute request := by
  unfold Engine.execute
  exact lift_bind_congr fun op hop =>
    Operation.perform_clock (isTimeless_of_ofValue h hop) clock

namespace Batch

/-! ## Batches -/

theorem runFrom_clock {requests : List Value} (h : ∀ r ∈ requests, e.isTimeless r = true)
    (clock : Clock) (mode : BatchMode) (index : Nat) :
    runFrom { e with clock } mode index requests = runFrom e mode index requests := by
  induction requests generalizing index with
  | nil => rfl
  | cons request requests ih =>
    obtain ⟨hrequest, hrequests⟩ := List.forall_mem_cons.1 h
    unfold runFrom
    rw [Engine.execute_clock hrequest, ih hrequests]

/-- The requests whose entries are no failures. -/
def carriedOut (requests : List Value) (entries : List Entry) : List Value :=
  ((requests.zip entries).filter fun p => !p.2.isFailure).map Prod.fst

/-- The requests that were carried out are carried out again, each with the same record. -/
theorem runFrom_carriedOut {requests : List Value} (h : ∀ r ∈ requests, e.isTimeless r = true)
    {entries : List Entry} {index : Nat} {s₁ : Store}
    (hrun : (runFrom e .tolerant index requests).run.run s = (.ok entries, s₁))
    (hs : Recounted s s') (index' : Nat) :
    ∃ s₁', (runFrom e .strict index' (carriedOut requests entries)).run.run s' =
        (.ok (entries.filter fun entry => !entry.isFailure), s₁') ∧ Recounted s₁ s₁' := by
  induction requests generalizing entries index s s' index' with
  | nil =>
    cases hrun
    exact ⟨s', rfl, hs⟩
  | cons request requests ih =>
    obtain ⟨hrequest, hrequests⟩ := List.forall_mem_cons.1 h
    obtain ⟨entry, rest, u, rfl, hrest, hentry⟩ := runFrom_cons_ok hrun
    rcases hentry with ⟨v, hdone, rfl⟩ | ⟨error, hfailed, -, rfl⟩
    · obtain ⟨u', hdone', hu⟩ := (Engine.alongside_execute hrequest hs).run hdone
      obtain ⟨s₁', hagain, hs₁⟩ := ih hrequests hrest hu (index' + 1)
      refine ⟨s₁', ?_, hs₁⟩
      show (runFrom e .strict index' (request :: carriedOut requests rest)).run.run s' = _
      rw [runFrom_cons, hdone']
      dsimp only
      rw [hagain]
      rfl
    · have hu := Engine.failsTo_execute e request s error u hfailed
      exact ih hrequests hrest (hu.symm.trans hs) index'

/-- Where neither the engine nor a request sets a time, the requests that a tolerant batch carried
out make up a strict batch that has exactly their records, in order, whatever clock it reads, and
leaves the same store but for the count of lookups. -/
theorem run_without_failures {requests : List Value}
    (htimeless : ∀ r ∈ requests, e.isTimeless r = true) {entries : List Entry} {s₁ : Store}
    (h : (run e .tolerant requests).run.run s = (.ok entries, s₁)) (clock : Clock) :
    ∃ n, (run { e with clock } .strict (carriedOut requests entries)).run.run s =
      (.ok (entries.filter fun entry => !entry.isFailure), s₁.withLookups n) := by
  obtain ⟨s₁', hagain, n, rfl⟩ := runFrom_carriedOut htimeless h (recounted_refl s) 0
  refine ⟨n, ?_⟩
  unfold run
  rw [runFrom_clock (fun r hr => ?_) clock, hagain]
  obtain ⟨p, hp, rfl⟩ := List.mem_map.1 hr
  exact htimeless _ (List.of_mem_zip (List.mem_filter.1 hp).1).1

/-! ### Two things and a link between them

Among the requests that add them are one for an unknown kind, one for a link to an atom that is not
there and a question about such an atom. -/

namespace Mixed

/-- An engine without rules that allows no time. -/
def engine : Engine := ⟨⟨[]⟩, [], .default, fun _ => 0⟩

/-- The request for an atom. -/
def add (kind : String) (name : Value) (outgoing : List Int) : Value :=
  .record [("operation", .text "addAtom"), ("atomType", .text kind), ("atomName", name),
    ("outgoing", .list (outgoing.map .int))]

/-- The requests. -/
def requests : List Value :=
  [add "Concept" (.text "a") [], add "Nowhere" (.text "b") [], add "Inheritance" .null [1, 7],
    add "Concept" (.text "b") [],
    .record [("operation", .text "getTruthValue"), ("atomId", .int 7)],
    add "Inheritance" .null [1, 2],
    .record [("operation", .text "infer"), ("strategy", .text "backwardChaining"),
      ("inputs", .record [("goal", .text "(Inheritance $X (Concept \"b\"))")])]]

end Mixed

open Mixed in
/-- The requests that succeed are carried out by themselves. -/
theorem run_without_failures_mixed : ∃ entries s₁ n,
    (run engine .tolerant requests).run.run empty = (.ok entries, s₁) ∧
      entries.map Entry.isFailure = [false, true, true, false, true, false, false] ∧
      (run { engine with clock := fun _ => 1 } .strict (carriedOut requests entries)).run.run empty =
        (.ok (entries.filter fun entry => !entry.isFailure), s₁.withLookups n) := by
  have hfailures : ((run engine .tolerant requests).run.run empty).1.toOption.map
      (·.map Entry.isFailure) = some [false, true, true, false, true, false, false] := by
    decide +kernel
  cases hrun : (run engine .tolerant requests).run.run empty with
  | mk r s₁ =>
    rw [hrun] at hfailures
    cases r with
    | error error => cases hfailures
    | ok entries =>
      obtain ⟨n, hagain⟩ := run_without_failures (by decide +kernel) hrun fun _ => 1
      exact ⟨entries, s₁, n, rfl, Option.some.inj hfailures, hagain⟩

end Batch

end Credence
