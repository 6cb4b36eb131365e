import Credence.Proofs.Failure
import Credence.Proofs.Number.Range
import Credence.Proofs.Store.Recounted
import Credence.Store.Assert
import Credence.Store.Conjunction
import Credence.Store.Written
/-!
# Failures of a store

What a store is asked or told fails, if it fails, in a way that a tolerant batch records:
atoms that are not there, names that spell no variable, children that do not fit. The one
exception is a truth value whose document holds a number beyond the doubles.
-/

namespace Credence

variable {α : Type}

/-- Whether a tolerant batch records an error. -/
abbrev Error.Recorded (e : Error) : Prop := e.isRecorded = true

open Error (Recorded)

/-! ## Truth values -/

namespace Truth

/-- The two numbers that a document gives for a truth value. -/
def numbers : Value → List Value
  | .list [s, c] => [s, c]
  | .record fields =>
    (Value.lookup "strength" fields).toList ++ (Value.lookup "confidence" fields).toList
  | _ => []

/-- Whether a number that is an integer has a double. -/
def isNear : Value → Bool
  | .int n => n.natAbs < Number.beyond
  | _ => true

theorem isNear_int {n : Int} : isNear (.int n) = true ↔ n.natAbs < Number.beyond := by
  unfold isNear
  exact decide_eq_true_iff

theorem failsIn_unit (label : String) {v : Value} (h : isNear v = true) :
    FailsIn (fun e => (Error.truth e).Recorded) (unit label v) := by
  have hcheck : ∀ x : Float, FailsIn (fun e => (Error.truth e).Recorded)
      (if inUnit x then .ok x else .error (.outOfRange label x)) := by
    intro x
    split
    · exact failsIn_ok x
    · exact failsIn_error rfl
  unfold unit
  dsimp only
  split
  · next n =>
    have hn := Number.isSome_ofInt? (isNear_int.1 h)
    split
    · exact hcheck _
    · next hnone =>
      rw [hnone] at hn
      cases hn
  · exact hcheck _
  · exact failsIn_error rfl

theorem failsIn_ofNumbers {s c : Value} (hs : isNear s = true) (hc : isNear c = true) :
    FailsIn (fun e => (Error.truth e).Recorded) (ofNumbers s c) :=
  (failsIn_unit _ hs).bind fun _ _ => (failsIn_unit _ hc).bind fun _ _ => failsIn_ok _

/-- Where no number is beyond the doubles, a document that is no truth value is recorded. -/
theorem failsIn_ofValue {v : Value} (h : (numbers v).all isNear = true) :
    FailsIn Recorded ((ofValue v).mapError .truth) := by
  refine FailsIn.mapError (P := fun e => (Error.truth e).Recorded) ?_ fun _ he => he
  unfold ofValue
  split
  · obtain ⟨hs, hc⟩ := List.all_eq_true.1 h |> List.forall_mem_cons.1
    exact failsIn_ofNumbers hs (hc _ (List.mem_singleton.2 rfl))
  · next fields =>
    split
    · exact failsIn_error rfl
    · exact failsIn_error rfl
    · next s c hs hc =>
      have h : ((Value.lookup "strength" fields).toList ++
          (Value.lookup "confidence" fields).toList).all isNear = true := h
      rw [hs, hc] at h
      obtain ⟨hs, hc⟩ := List.all_eq_true.1 h |> List.forall_mem_cons.1
      exact failsIn_ofNumbers hs (hc _ (List.mem_singleton.2 rfl))
  · exact failsIn_error rfl

end Truth

/-! ## Patterns and trees -/

theorem Pattern.Source.failsIn_pattern (src : Source) : FailsIn Recorded src.pattern := by
  unfold pattern
  split
  · exact failsIn_ok _
  · exact FailsIn.mapError (P := fun _ => True) (fun _ _ => trivial) fun _ _ => rfl
  · exact failsIn_error rfl

namespace Store

variable (s : Store)

theorem failsIn_patternOfNode (k : NodeKind) (name : String) :
    FailsIn Recorded (patternOfNode k name) := by
  unfold patternOfNode
  split
  · exact FailsIn.mapError (P := fun _ => True) (fun _ _ => trivial) fun _ _ => rfl
  · exact failsIn_ok _

theorem failsIn_patternWithin (depth : Nat) (id : AtomId) :
    FailsIn Recorded (s.patternWithin depth id) := by
  induction depth generalizing id with
  | zero => exact failsIn_error rfl
  | succ depth ih =>
    unfold patternWithin
    split
    · exact failsIn_error rfl
    · split
      · exact failsIn_patternOfNode _ _
      · exact (failsIn_mapM fun child _ => ih child).map _

theorem failsIn_toPattern (id : AtomId) : FailsIn Recorded (s.toPattern id) :=
  s.failsIn_patternWithin _ id

theorem failsIn_toText (id : AtomId) : FailsIn Recorded (s.toText id) :=
  (s.failsIn_toPattern id).map _

theorem failsIn_toTexts (ids : List AtomId) : FailsIn Recorded (s.toTexts ids) :=
  failsIn_mapM fun id _ => s.failsIn_toText id

/-! ## Matching -/

theorem failsIn_candidates (p : Pattern) (b : Bindings) : FailsIn Recorded (s.candidates p b) := by
  unfold candidates
  split
  · split <;> exact failsIn_ok _
  · exact failsIn_ok _
  · split
    · refine (failsIn_mapM fun id _ => ?_).bind fun found _ => failsIn_ok _
      split
      · exact failsIn_ok _
      · exact failsIn_error rfl
    · exact failsIn_ok _

theorem failsIn_matchesFrom (p : Pattern) (b : Bindings) : FailsIn Recorded (s.matchesFrom p b) :=
  (s.failsIn_candidates p b).map _

theorem failsIn_matchesOf (p : Pattern) : FailsIn Recorded (s.matchesOf p) :=
  s.failsIn_matchesFrom p .empty

theorem failsIn_lookup (p : Pattern) : FailsIn Recorded (s.lookup p) :=
  (s.failsIn_matchesOf p).map _

theorem failsIn_solutions (ps : List Pattern) (b : Bindings) :
    FailsIn Recorded (s.solutions ps b) := by
  induction ps generalizing b with
  | nil => exact failsIn_ok _
  | cons p ps ih =>
    refine (s.failsIn_matchesFrom p b).bind fun ms _ => ?_
    exact (failsIn_mapM fun m _ => (ih m.bindings).map _).bind fun rests _ => failsIn_ok _

theorem failsIn_instantiate (p : Pattern) (b : Bindings) :
    FailsIn Recorded (s.instantiate p b) := by
  have htrees : FailsIn Recorded (s.bindingTrees b) :=
    (failsIn_mapM fun e _ => (s.failsIn_toPattern e.2).map _).map _
  exact htrees.map _

/-! ## References -/

theorem failsIn_locate (r : Reference) : FailsIn Recorded (s.locate r) := by
  unfold locate
  split
  · exact failsIn_ok _
  · exact failsIn_error rfl

theorem failsIn_atomOf (v : Value) : FailsIn Recorded (s.atomOf v) := by
  refine (s.failsIn_locate (.ofValue v)).bind fun id _ => ?_
  split
  · exact failsIn_ok _
  · exact failsIn_error rfl

theorem failsIn_domain (vs : List Value) : FailsIn Recorded (s.domain vs) :=
  failsIn_mapM fun r _ => s.failsIn_locate r

theorem failsIn_premises (vs : List Value) : FailsIn Recorded (s.premises vs) :=
  (failsIn_mapM fun r _ => s.failsIn_locate r).map _

end Store

/-! ## Questions -/

namespace Reading

variable (s : Store)

theorem confined_count (n : Nat) : Confined Recorded (count n) := confined_modify _

theorem confined_matchesFrom (p : Pattern) (b : Bindings) :
    Confined Recorded (matchesFrom s p b) :=
  (confined_count _).bind fun _ => confined_lift (s.failsIn_matchesFrom p b)

theorem confined_find (p : Pattern) (limit : Option Nat) : Confined Recorded (find s p limit) := by
  unfold find
  split
  · exact confined_pure _
  · exact (confined_matchesFrom s p .empty).bind fun ms => confined_pure _
  · exact confined_matchesFrom s p .empty

theorem confined_lookup (p : Pattern) : Confined Recorded (lookup s p) :=
  (confined_matchesFrom s p .empty).bind fun _ => confined_pure _

/-- The limits of requests are not negative. -/
theorem failsIn_limitOf (n : Nat) : FailsIn Recorded (limitOf (some (.ofNat n))) := by
  have hn : (Scalar.ofNat n).isLess (.whole 0) = false := by
    unfold Scalar.ofNat Scalar.isLess
    simp [Scalar.ratio?]
  unfold limitOf
  dsimp only
  rw [if_neg (by rw [hn]; decide)]
  exact failsIn_ok _

theorem confined_findWritten (src : Pattern.Source) (n : Nat) :
    Confined Recorded (findWritten s src (some (.ofNat n))) := by
  refine (confined_lift src.failsIn_pattern).bind fun p => ?_
  refine (confined_lift (failsIn_limitOf n)).bind fun limit => ?_
  exact (confined_find s p limit).bind fun ms => confined_pure _

theorem failsIn_kindOf (v : Value) : FailsIn Recorded (kindOf v) := by
  unfold kindOf
  repeat' split
  all_goals first | exact failsIn_ok _ | exact failsIn_error rfl

theorem confined_queryWritten (text : String) (kind : Value) (n : Nat) :
    Confined Recorded (queryWritten s text kind (.ofNat n)) := by
  refine (confined_lift (failsIn_limitOf n)).bind fun limit => ?_
  refine (confined_lift (failsIn_kindOf kind)).bind fun k => ?_
  exact (confined_count 1).bind fun _ => confined_pure _

theorem confined_run {question : Store → Reading α} (h : ∀ s, Confined Recorded (question s)) :
    Confined Recorded (run question) := by
  intro s
  rw [Store.run_question]
  exact h s 0

end Reading

/-! ## Changes -/

namespace Store

theorem confined_addNode (k : NodeKind) (name : String) (t : Truth) :
    Confined Recorded (addNode k name t) := by
  intro s
  rw [run_addNode]
  split
  · exact failsIn_error rfl
  · exact failsIn_ok _

theorem confined_addLinkWritten (k : LinkKind) (out : List AtomId) (written : List Value)
    (t : Truth) : Confined Recorded (addLinkWritten k out written t) := by
  intro s
  rw [run_addLinkWritten]
  repeat' split
  all_goals first | exact failsIn_ok _ | exact failsIn_error rfl

theorem confined_setTruth (id : AtomId) (t : Truth) : Confined Recorded (setTruth id t) := by
  intro s
  rw [run_setTruth]
  split
  · exact failsIn_error rfl
  · exact failsIn_ok _

mutual

theorem confined_ensure (truth : Option Truth) (p : Pattern) :
    Confined Recorded (ensure truth p) := by
  unfold ensure
  split
  · exact confined_throw rfl
  · refine confined_get.bind fun s => ?_
    split
    · exact confined_pure _
    · exact confined_addNode _ _ _
  · split <;> exact confined_throw rfl
  · refine (confined_ensureList _).bind fun children => confined_get.bind fun s => ?_
    split
    · exact confined_pure _
    · exact confined_addLinkWritten _ _ _ _
  · refine (confined_ensureList _).bind fun children => ?_
    split <;> exact confined_throw rfl

theorem confined_ensureList (cs : List Pattern) : Confined Recorded (ensureList cs) := by
  cases cs with
  | nil => exact confined_pure []
  | cons c cs =>
    unfold ensureList
    exact (confined_ensure none c).bind fun id =>
      (confined_ensureList cs).bind fun ids => confined_pure _

end

theorem confined_assert (p : Pattern) (truth : Option Truth) :
    Confined Recorded (assert p truth) := by
  have hsettle : ∀ root t, Confined Recorded (settle root t) := by
    intro root t s
    rw [run_settle]
    exact failsIn_ok ()
  unfold assert
  dsimp only
  split
  · exact fun s => failsIn_error rfl
  · refine (confined_ensure truth p).bind fun root => ?_
    split
    · exact confined_pure root
    · exact (hsettle root _).bind fun _ => confined_pure root

/-- Adding an atom is refused in a recorded way unless its truth value has a number beyond the
doubles. -/
theorem confined_add (kind name : Value) (outgoing : List Value) {truth : Value}
    (h : (Truth.numbers truth).all Truth.isNear = true) :
    Confined Recorded (add kind name outgoing truth) := by
  have htruth : FailsIn Recorded (truthOf truth) := by
    unfold truthOf
    split
    · exact failsIn_ok _
    · exact Truth.failsIn_ofValue h
  have hchildren : ∀ s : Store, FailsIn Recorded (s.children outgoing) := fun s =>
    failsIn_mapM fun v _ => by
      split
      · exact failsIn_ok _
      · exact failsIn_error rfl
  unfold add
  dsimp only
  split
  · exact confined_throw rfl
  · split
    · exact fun _ => failsIn_error rfl
    · split
      · split
        · exact fun _ => failsIn_error rfl
        · exact (confined_lift htruth).bind fun t => confined_addNode _ _ t
      · exact confined_throw rfl
  · split
    · exact fun _ => failsIn_error rfl
    · split
      · refine (confined_lift htruth).bind fun t => confined_get.bind fun s => ?_
        exact (confined_lift (hchildren s)).bind fun out => confined_addLinkWritten _ out _ t
      · exact confined_throw rfl

theorem confined_setTruthValue (ref : Value) {truth : Value}
    (h : (Truth.numbers truth).all Truth.isNear = true) :
    Confined Recorded (setTruthValue ref truth) := by
  refine (confined_lift (Truth.failsIn_ofValue h)).bind fun t => confined_get.bind fun s => ?_
  exact (confined_lift (s.failsIn_locate _)).bind fun id => confined_setTruth id t

end Store

end Credence
