import Credence.Engine.Task
import Credence.Proofs.Rule.Failure
import Credence.Proofs.Ranking.Permutation
/-!
# Failures of reasoning

Every kind of reasoning but the temporal one only ever fails over the atoms, patterns and
facts that it was given, and a tolerant batch records that. Of the rules nothing is
asked but reliabilities from zero to one, which chaining forward puts into truth values.
-/

namespace Credence

open Error (Recorded)

/-! ## Chaining forward -/

namespace Forward

/-- An integer from zero to one has a double. -/
theorem isNear_of_isUnit {a : Scalar} (h : a.isUnit = true) : Truth.isNear a.toValue = true := by
  cases a with
  | whole n =>
    obtain ⟨h0, h1⟩ := Bool.and_eq_true_iff.1 h
    simp only [Scalar.isAtMost, Scalar.ratio?, Int.ofNat_eq_natCast, Nat.cast_one, mul_one,
      decide_eq_true_eq] at h0 h1
    obtain rfl | rfl : n = 0 ∨ n = 1 := by omega
    · decide +kernel
    · decide +kernel
  | real x => rfl
  | flag b => rfl

theorem failsIn_fireTruth {r : Rule} (h : r.Checked) (consumed : List Truth) (u : Bool) :
    FailsIn Recorded (fireTruth r consumed u) := by
  have hnear := isNear_of_isUnit h.reliability
  have hpart : ∀ label, FailsIn Recorded
      ((Truth.unit label r.reliability.toValue).mapError Error.truth) := fun label =>
    (Truth.failsIn_unit label hnear).mapError fun _ he => he
  unfold fireTruth
  dsimp only
  split
  · exact (hpart _).map _
  · exact (hpart _).map _

theorem failsIn_fire (facts : Store) (params : Params) (iteration : Nat) {r : Rule}
    (h : r.Checked) (round : Round) (sol : Solution) :
    FailsIn Recorded (fire facts params iteration r round sol) := by
  unfold fire
  refine (facts.failsIn_instantiate _ _).bind fun conclusion _ => ?_
  dsimp only
  split
  · exact failsIn_ok round
  · refine (failsIn_fireTruth h _ _).bind fun truth _ => ?_
    have hknown : FailsIn Recorded (isKnown facts conclusion truth) :=
      (facts.failsIn_lookup conclusion).bind fun _ _ => failsIn_ok _
    refine hknown.bind fun known _ => ?_
    split
    · exact failsIn_ok round
    · exact (facts.failsIn_toTexts _).bind fun premises _ => failsIn_ok _

theorem failsIn_fireAll (facts : Store) {rules : List Rule} (h : ∀ r ∈ rules, r.Checked)
    (params : Params) (iteration : Nat) (round : Round) :
    FailsIn Recorded (fireAll facts rules params iteration round) :=
  failsIn_foldlM (fun r hr _ => (facts.failsIn_solutions _ _).bind fun _ _ =>
    failsIn_foldlM (fun sol _ => (failsIn_fire facts params iteration (h r hr) · sol)) _) round

theorem failsIn_accept (maxResults : Nat) (pending : List (Pattern × Conclusion)) (facts : Store)
    (cs : List Conclusion) : FailsIn Recorded (accept maxResults pending facts cs) := by
  induction pending generalizing facts cs with
  | nil => exact failsIn_ok _
  | cons pc rest ih =>
    have hassert := Store.confined_assert pc.1 (some pc.2.truth) facts
    unfold accept
    split
    · exact failsIn_ok _
    · split
      · exact ih _ _
      · next e _ hrun =>
        rw [hrun] at hassert
        exact failsIn_error (hassert e rfl)

/-- Every iteration fails in a recorded way only, and so does a run. -/
theorem failsIn_iterate {rules : List Rule} (h : ∀ r ∈ rules, r.Checked) (params : Params)
    (deadline : Deadline) (more iteration polls : Nat) (run : Run) :
    FailsIn Recorded (iterate rules params deadline more iteration polls run) := by
  induction more generalizing iteration polls run with
  | zero => exact failsIn_ok _
  | succ more ih =>
    unfold iterate
    split
    · exact failsIn_ok _
    · refine (failsIn_fireAll _ h _ _ _).bind fun round _ => ?_
      dsimp only
      split
      · exact failsIn_ok _
      · refine (failsIn_accept _ _ _ _).bind fun accepted _ => ?_
        split
        · exact failsIn_ok _
        · exact ih _ _ _

theorem failsIn_chain (s : Store) {rules : List Rule} (h : ∀ r ∈ rules, r.Checked)
    (premises : Option (List AtomId)) (params : Params) (clock : Clock) :
    FailsIn Recorded (chain s rules premises params clock) :=
  (s.failsIn_toTexts _).bind fun _ _ =>
    (failsIn_iterate h _ _ _ _ _ _).bind fun _ _ => failsIn_ok _

end Forward

/-! ## Chaining backward -/

namespace Backward

variable (pb : Problem)

theorem failsIn_extend (s : Store) (θ : Substitution) (b : Bindings) :
    FailsIn Recorded (extend s θ b) :=
  failsIn_foldlM (fun e _ _ => (s.failsIn_toPattern e.2).map _) θ

theorem confined_byFact (goal : Pattern) (θ : Substitution) (depth : Nat) (m : Match) :
    Search.Confined Recorded (pb.byFact goal θ depth m) := by
  unfold Problem.byFact
  split
  · next e he => exact failsIn_extend _ _ _ e he
  · trivial

theorem confined_proveAll {prove : Pattern → Substitution → Proving (Substitution × Proof)}
    (h : ∀ g θ, Search.Confined Recorded (prove g θ)) (gs : List Pattern) (θ : Substitution) :
    Search.Confined Recorded (proveAll prove gs θ) := by
  induction gs generalizing θ with
  | nil => trivial
  | cons g gs ih => exact (h g θ).bind fun _ => (ih _).map _

/-- A search for proofs fails over the atoms that match a goal only. -/
theorem confined_prove (levels depth : Nat) (open_ : List String) (goal : Pattern)
    (θ : Substitution) : Search.Confined Recorded (pb.prove levels depth open_ goal θ) := by
  induction levels generalizing depth open_ goal θ with
  | zero =>
    unfold Problem.prove
    intro s
    show Search.Confined Recorded (if s.expired then _ else _)
    split
    · trivial
    · exact fun _ => trivial
  | succ levels ih =>
    unfold Problem.prove
    intro s
    show Search.Confined Recorded (if s.expired then _ else _)
    split
    · trivial
    · intro s
      dsimp only
      split
      · next e he => exact ((pb.store.failsIn_matchesOf _).map _) e he
      · refine (Search.confined_ofEach fun m _ => confined_byFact pb _ _ _ m).append ?_
        split
        · trivial
        · intro s
          refine Search.confined_ofEach fun r _ => ?_
          split
          · trivial
          · exact (confined_proveAll (fun g θ => ih _ _ g θ) _ _).map _

theorem failsIn_provePremises (key : String) (gs : List Pattern) (θ : Substitution) (s : State) :
    FailsIn Recorded (pb.provePremises key gs θ s).1 := by
  induction gs generalizing θ s with
  | nil => exact failsIn_ok _
  | cons g gs ih =>
    have hnext := (confined_prove pb pb.params.maxSteps 1 [key] g θ).fold
      (fun _ a => (some a, true)) none s
    unfold Problem.provePremises
    split
    · next hrun =>
      unfold Search.next at hrun
      rw [hrun] at hnext
      exact failsIn_error (hnext _ rfl)
    · exact failsIn_ok _
    · next θ₁ p s₁ _ =>
      have hrest := ih θ₁ s₁
      split
      · next hgs =>
        rw [hgs] at hrest
        exact failsIn_error (hrest _ rfl)
      · exact failsIn_ok _

theorem failsIn_explain (goal : Pattern) (s : State) :
    FailsIn Recorded (pb.explain goal s).1 := by
  unfold Problem.explain
  dsimp only
  split
  · exact failsIn_ok _
  · next r _ _ =>
    cases Unification.unify goal r.conclusion .empty with
    | none => exact failsIn_ok _
    | some θ =>
      have hps := failsIn_provePremises pb goal.variantKey r.premises θ s
      dsimp only
      split
      · next hrun =>
        rw [hrun] at hps
        exact failsIn_error (hps _ rfl)
      · exact failsIn_ok _
      · exact failsIn_ok _

theorem failsIn_report (goal : Pattern) (s : State) : FailsIn Recorded (pb.report goal s).1 := by
  have hsearch := (confined_prove pb (pb.params.maxSteps + 1) 0 [] goal .empty).fold
    (Drawn.step pb.params) ⟨none, 0, false⟩ s
  unfold Problem.report
  dsimp only
  split
  · next hrun =>
    rw [hrun] at hsearch
    exact failsIn_error (hsearch _ rfl)
  · next d s₁ _ =>
    have hrest := failsIn_explain pb goal { s₁ with boundReached := s₁.boundReached || d.capped }
    split
    · exact failsIn_ok _
    · split
      · next hrun =>
        rw [hrun] at hrest
        exact failsIn_error (hrest _ rfl)
      · exact failsIn_ok _

theorem confined_chain (s : Store) (rules : RuleBase) (goal : Pattern) (params : Params)
    (clock : Clock) : Confined Recorded (chain s rules goal params clock) :=
  (Reading.confined_count _).bind fun _ => confined_lift (failsIn_report _ goal .start)

end Backward

/-! ## Explaining -/

namespace Abduction

variable (s : Store)

theorem confined_supports (u : Bool) (cs : List Pattern) :
    Confined Recorded (supports s u cs) := by
  induction cs with
  | nil => exact confined_pure _
  | cons c cs ih =>
    unfold supports
    refine ((Reading.confined_matchesFrom s c .empty).bind fun _ => confined_pure _).bind
      fun found => ?_
    split
    · exact ih.bind fun _ => confined_pure _
    · exact (confined_lift (s.failsIn_toText _)).bind fun _ => ih.bind fun _ => confined_pure _

theorem confined_confirm (u : Bool) (ps : List Pattern) (consistency : Float) :
    Confined Recorded (confirm s u ps consistency) := by
  induction ps generalizing consistency with
  | nil => exact confined_pure _
  | cons p ps ih =>
    unfold confirm
    split
    · exact ih _
    · refine (Reading.confined_lookup s p).bind fun found => ?_
      split
      · exact ih _
      · refine (confined_lift (s.failsIn_toText _)).bind fun _ => ?_
        exact (ih _).bind fun _ => confined_pure _

theorem confined_examine (params : Params) (observation : Pattern) (index : Nat)
    (scored : List Scored) (cs : List Candidate) :
    Confined Recorded (examine s params observation index scored cs) := by
  induction cs generalizing index scored with
  | nil => exact confined_pure _
  | cons c cs ih =>
    have hcandidate : FailsIn Recorded c.hypothesis := by
      cases c with
      | written v => exact Hypothesis.failsIn_ofValue v
      | ready h => exact failsIn_ok h
    unfold examine
    refine (confined_lift hcandidate).bind fun h => ?_
    dsimp only
    split
    · exact confined_pure _
    · split
      · exact ih _ _
      · refine Confined.bind ?_ fun sc => ih _ _
        exact (confined_supports s _ _).bind fun _ =>
          (confined_confirm s _ _ _).bind fun _ => confined_pure _

theorem confined_explain (observation : Pattern) (candidates : List Candidate) (params : Params) :
    Confined Recorded (explain s observation candidates params) :=
  (confined_examine s params observation 0 [] candidates).bind fun _ => confined_pure _

end Abduction

/-! ## Analogies -/

namespace Analogy

variable (s : Store)

theorem failsIn_project (params : Params) (map : Table AtomId (AtomId × Float)) (as : List Atom)
    (done : List Prediction) : FailsIn Recorded (project s params map as done) := by
  induction as generalizing done with
  | nil => exact failsIn_ok done
  | cons a rest ih =>
    unfold project
    split
    · exact ih done
    · split
      · exact ih done
      · split
        · exact ih done
        · refine (failsIn_mapM fun id _ => s.failsIn_toPattern id).bind fun trees _ => ?_
          dsimp only
          split
          · exact ih done
          · split
            · exact failsIn_ok done
            · exact (s.failsIn_toText _).bind fun _ _ => ih _

theorem failsIn_elements (m : Mapped) : FailsIn Recorded (elements s m) := by
  unfold elements
  split
  · exact failsIn_ok _
  · exact failsIn_ok _
  · exact (failsIn_mapM fun p _ => (s.failsIn_toText _).bind fun _ _ =>
      (s.failsIn_toText _).bind fun _ _ => failsIn_ok _).bind fun _ _ => failsIn_ok _

theorem failsIn_mappedValue (m : Mapped) : FailsIn Recorded (mappedValue s m) :=
  (s.failsIn_toText _).bind fun _ _ => (s.failsIn_toText _).bind fun _ _ =>
    (failsIn_elements s m).bind fun _ _ => failsIn_ok _

theorem failsIn_reason (source target : List AtomId) (params : Params) (floor : Float) :
    FailsIn Recorded (reason s source target params floor) :=
  (s.failsIn_toTexts _).bind fun _ _ => (s.failsIn_toTexts _).bind fun _ _ =>
    (failsIn_mapM fun m _ => failsIn_mappedValue s m).bind fun _ _ =>
      (failsIn_project s _ _ _ _).bind fun _ _ => failsIn_ok _

end Analogy

/-! ## Probabilities -/

namespace Propagation

variable (s : Store)

theorem confined_priorOf (f : Fact) : Confined Recorded (priorOf s f) := by
  unfold priorOf
  split
  · exact confined_pure _
  · refine (confined_lift (failsIn_parsePattern _)).bind fun p => ?_
    refine (Reading.confined_lookup s p).bind fun found => ?_
    split
    · exact confined_pure _
    · exact confined_throw rfl

theorem confined_priorsOf (fs : List Fact) : Confined Recorded (priorsOf s fs) := by
  induction fs with
  | nil => exact confined_pure _
  | cons f fs ih =>
    unfold priorsOf
    split
    · exact ih
    · exact (confined_priorOf s f).bind fun _ => ih.bind fun _ => confined_pure _

theorem confined_reason (graph : List Fact) (params : Params) :
    Confined Recorded (reason s graph params) :=
  (confined_priorsOf s graph).bind fun _ => confined_pure _

end Propagation

end Credence
