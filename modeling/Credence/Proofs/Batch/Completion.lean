import Credence.Proofs.Batch.Run
import Credence.Proofs.Engine.Failure
/-!
# Batches that finish

A tolerant batch records what fails and goes on, so it finishes unless a request fails in
a way that is not recorded. That takes a number beyond the doubles in a truth value, or
times and spans that cannot be represented. Without them every request has its entry.
-/

namespace Credence

open Error (Recorded)
open Reader Fields

/-! ## Operations -/

namespace Operation

/-- Whether the numbers, times and spans that an operation computes with can be represented. -/
def isRepresentable : Operation → Bool
  | addAtom _ _ _ truth => (Truth.numbers truth).all Truth.isNear
  | setTruthValue _ truth => (Truth.numbers truth).all Truth.isNear
  | infer strategy _ inputs =>
    match Strategy.ofName? strategy with
    | some st => Engine.inputsFit (Engine.givenInputs inputs) st
    | none => true
  | _ => true

theorem fits_mappingField (name : String) (fields : List (String × Value)) :
    (mappingField name).Fits fields :=
  fits_withDefault fun _ v _ => (fits_optional (fits_mapping v)).map _

theorem fits_limitField (fields : List (String × Value)) : limitField.Fits fields :=
  fits_withDefault fun _ v _ => fits_atLeast 0 v

theorem fits_nameField (fields : List (String × Value)) : nameField.Fits fields :=
  fits_required fun _ v _ => fits_any v

theorem fits_readers {r : String × Reader Operation} (hr : r ∈ readers) (v : Value) :
    Fits (r.2 v) := by
  unfold readers at hr
  simp only [List.mem_cons, List.not_mem_nil, or_false] at hr
  rcases hr with rfl | rfl | rfl | rfl | rfl | rfl <;> dsimp only <;>
    refine Fields.fits_reader fun fields _ => ?_
  · exact (fits_nameField fields).map _
      |>.seq (fits_required fun _ v _ => fits_text v)
      |>.seq (fits_withDefault fun _ v _ => fits_optional (fits_text v))
      |>.seq (fits_withDefault fun _ _ _ => fits_optional (fits_list fun v _ => fits_int v))
      |>.seq (fits_withDefault fun _ v _ => fits_any v)
  · exact (fits_nameField fields).map _
      |>.seq (fits_withDefault fun _ v _ => fits_text v)
      |>.seq (fits_withDefault fun _ v _ => fits_optional (fits_text v))
      |>.seq (fits_limitField fields)
  · exact (fits_nameField fields).map _
      |>.seq (fits_required fun _ v _ => fits_text v)
      |>.seq (fits_limitField fields)
  · exact (fits_nameField fields).map _ |>.seq (fits_required fun _ v _ => fits_int v)
  · exact (fits_nameField fields).map _
      |>.seq (fits_required fun _ v _ => fits_int v)
      |>.seq (fits_required fun _ v _ => fits_any v)
  · exact (fits_nameField fields).map _
      |>.seq (fits_required fun _ v _ => fits_text v)
      |>.seq (fits_mappingField "params" fields)
      |>.seq (fits_mappingField "inputs" fields)

/-- A request that is no operation is refused in a recorded way. -/
theorem failsIn_ofValue (v : Value) : FailsIn Recorded (ofValue v) := by
  unfold ofValue
  split
  · dsimp only
    split
    · next n reader hfound =>
      split at hfound
      · exact failsIn_fit _ (fits_readers (List.mem_of_find?_eq_some hfound) _)
      · cases hfound
    · exact failsIn_error rfl
  · exact failsIn_error rfl

theorem failsIn_matchValues (s : Store) (found : List Finding) :
    FailsIn Recorded (matchValues s found) :=
  failsIn_mapM fun _ _ => (s.failsIn_toText _).bind fun _ _ => failsIn_ok _

variable {e : Engine}

/-- An operation whose quantities can be represented fails in a recorded way only. -/
theorem confined_perform (hrules : ∀ r ∈ e.rules.rules, r.Checked) {op : Operation}
    (h : op.isRepresentable = true) : Confined Recorded (op.perform e) := by
  unfold perform
  cases op with
  | addAtom kind name outgoing truth =>
    refine (Store.confined_add _ _ _ h).bind fun id => ?_
    exact confined_get.bind fun s => confined_pure _
  | queryAtoms text kind limit =>
    have hquery := fun s => Reading.confined_queryWritten s text (textOr kind) limit
    exact (Reading.confined_run hquery).bind fun found => confined_pure _
  | patternMatch pattern limit =>
    have hfind := fun s => Reading.confined_findWritten s (.text pattern) limit
    refine (Reading.confined_run hfind).bind fun found => confined_get.bind fun s => ?_
    exact (confined_lift (failsIn_matchValues s found)).bind fun values => confined_pure _
  | getTruthValue id =>
    refine confined_get.bind fun s => ?_
    exact (confined_lift (s.failsIn_atomOf _)).bind fun a => confined_pure _
  | setTruthValue id truth =>
    refine (Store.confined_setTruthValue _ h).bind fun old => confined_get.bind fun s => ?_
    exact (confined_lift (s.failsIn_atomOf _)).bind fun a => confined_pure _
  | infer strategy params inputs =>
    refine Reading.confined_run fun s => Engine.confined_infer hrules params (fun st hst => ?_) s
    have hname : Strategy.ofName? strategy = some st := by
      unfold Strategy.ofValue at hst
      dsimp only at hst
      split at hst
      · next hname => rw [hname, Except.ok.inj hst]
      · cases hst
    unfold isRepresentable at h
    dsimp only at h
    rw [hname] at h
    exact h

end Operation

/-! ## Batches -/

namespace Batch

open Store

variable {e : Engine}

/-- Whether the numbers, times and spans that a request asks to compute with can be represented. -/
def isRepresentable (request : Value) : Bool :=
  match Operation.ofValue request with
  | .ok op => op.isRepresentable
  | .error _ => true

theorem confined_execute (hrules : ∀ r ∈ e.rules.rules, r.Checked) {request : Value}
    (h : isRepresentable request = true) : Confined Recorded (e.execute request) := by
  unfold Engine.execute
  cases hop : Operation.ofValue request with
  | error error => exact fun _ => failsIn_error (Operation.failsIn_ofValue request error hop)
  | ok op =>
    unfold isRepresentable at h
    rw [hop] at h
    exact Operation.confined_perform hrules h

/-- The entry at a place for what a request came to. -/
def Entry.of (index : Nat) : Except Error Value → Entry
  | .ok v => .done v
  | .error error => .failed error index

/-- A request that fails in a recorded way has an entry, and the batch goes on behind it. -/
theorem runFrom_tolerant_cons {request : Value} (h : Confined Recorded (e.execute request))
    (index : Nat) (requests : List Value) (s : Store) :
    (runFrom e .tolerant index (request :: requests)).run.run s =
      resume (Entry.of index ((e.execute request).run.run s).1)
        ((runFrom e .tolerant (index + 1) requests).run.run ((e.execute request).run.run s).2) := by
  have hs := h s
  rw [runFrom_cons]
  generalize (e.execute request).run.run s = r at hs
  obtain ⟨error | v, u⟩ := r
  · have hrecorded : records .tolerant error = true := hs error rfl
    dsimp only
    rw [if_pos hrecorded]
    rfl
  · rfl

theorem runFrom_tolerant {requests : List Value}
    (h : ∀ r ∈ requests, Confined Recorded (e.execute r)) (index : Nat) (s : Store) :
    ∃ entries s', (runFrom e .tolerant index requests).run.run s = (.ok entries, s') ∧
      ∀ i request, requests[i]? = some request → entries[i]? =
        some (Entry.of (index + i) ((e.execute request).run.run
          ((runFrom e .tolerant index (requests.take i)).run.run s).2).1) := by
  induction requests generalizing index s with
  | nil => exact ⟨[], s, rfl, fun i request hi => by cases hi⟩
  | cons request requests ih =>
    obtain ⟨hrequest, hrequests⟩ := List.forall_mem_cons.1 h
    obtain ⟨entries, s', hrun, hentries⟩ :=
      ih hrequests (index + 1) ((e.execute request).run.run s).2
    refine ⟨Entry.of index ((e.execute request).run.run s).1 :: entries, s', ?_, fun i r hi => ?_⟩
    · rw [runFrom_tolerant_cons hrequest, hrun]
      rfl
    · cases i with
      | zero =>
        cases hi
        rfl
      | succ i =>
        rw [List.take_succ_cons, runFrom_tolerant_cons hrequest]
        have := hentries i r hi
        rw [show index + (i + 1) = index + 1 + i by omega]
        exact this

namespace Faulty

/-- A list of two things is one the other way round as well. -/
def swap : Rule :=
  ⟨.text "swap", [.link (.link .list) [.var "X", .var "Y"]],
    .link (.link .list) [.var "Y", .var "X"], .real 0.9, .null, .int 0, true⟩

/-- An engine with one rule that allows no time. -/
def engine : Engine := ⟨⟨[swap]⟩, [], .default, fun _ => 0⟩

/-- The request for a thing with a truth value. -/
def add (name : String) (truth : Value) : Value :=
  .record [("operation", .text "addAtom"), ("atomType", .text "Concept"), ("atomName", .text name),
    ("truthValue", truth)]

/-- The request to relate an hour of rain and whatever else is given for it. -/
def rain (start : Value) (more : List (String × Value)) : Value :=
  .record [("operation", .text "infer"), ("strategy", .text "temporal"),
    ("inputs", .record [("facts", .list
      [.record ([("label", .text "rain"), ("start", start), ("duration", .int 3600)] ++ more)])])]

/-- The requests. -/
def requests : List Value :=
  [add "a" (.list [.int 7, .float 0.5]), .int 3, add "a" .null,
    .record [("operation", .text "setTruthValue"), ("atomId", .int 9),
      ("truthValue", .list [.int 1, .int 1])],
    rain (.int 0) [], rain (.int 0) [("atom", .int 9)],
    .record [("operation", .text "infer"), ("strategy", .text "forwardChaining")]]

/-- Requests of which the first gives a strength beyond the doubles. -/
def huge : List Value := [add "a" (.list [.int (10 ^ 309), .float 0.5]), add "b" .null]

/-- A request for rain in the last hour of the calendar that lasts a second too long. -/
def late : List Value := [rain (.text "9999-12-31T23:00:01Z") []]

end Faulty

end Batch

end Credence
