import Credence.Inference.Abduction
import Credence.Proofs.Inference.Confidence
import Credence.Proofs.Rule.Priority
import Credence.Proofs.Rule.Retag
import Credence.Proofs.Store.Counterpart
import Credence.Proofs.Store.Lookup
import Credence.Proofs.Store.Reachable
/-!
# The most plausible explanation

Candidates are examined in order until enough of them account for the observation, which
they do if what they predict has an instance in common with it. Each of these is scored on
its own, and the scores are put in order in the end. So the hypotheses are those of the
first candidates that account for the observation, and the first is as plausible as any.
-/

namespace Credence

open Pattern Substitution Number Store

/-! ## Questions that are answered -/

/-- Whether a question has an answer, and every answer a property, however many lookups were
counted before. -/
def Reading.Returns {α : Type} (x : Reading α) (P : α → Prop) : Prop :=
  ∀ n, ∃ a m, StateT.run (ExceptT.run x) n = (.ok a, m) ∧ P a

namespace Reading

variable {α β : Type} {P : α → Prop} {Q : β → Prop}

theorem returns_pure {a : α} (h : P a) : (pure a : Reading α).Returns P :=
  fun n => ⟨a, n, rfl, h⟩

theorem returns_lift {x : Except Error α} {a : α} (hx : x = .ok a) (h : P a) :
    (liftM x : Reading α).Returns P := by
  subst hx
  exact fun n => ⟨a, n, rfl, h⟩

theorem Returns.bind {x : Reading α} {f : α → Reading β} (hx : x.Returns P)
    (hf : ∀ a, P a → (f a).Returns Q) : (x >>= f).Returns Q := by
  intro n
  obtain ⟨a, m, hrun, ha⟩ := hx n
  rw [run_question_bind, hrun]
  exact hf a ha m

theorem Returns.mono {P' : α → Prop} {x : Reading α} (hx : x.Returns P) (hP : ∀ a, P a → P' a) :
    x.Returns P' := by
  intro n
  obtain ⟨a, m, hrun, ha⟩ := hx n
  exact ⟨a, m, hrun, hP a ha⟩

variable {s : Store} (h : s.Inv)
include h

theorem returns_matchesFrom (p : Pattern) :
    (Reading.matchesFrom s p .empty).Returns fun ms => ms = s.scan p .empty := by
  intro n
  rw [run_matchesFrom, matchesFrom_eq_scan h p (holds_empty s)]
  exact ⟨_, _, rfl, rfl⟩

theorem returns_lookup (p : Pattern) :
    (Reading.lookup s p).Returns fun o => s.lookup p = .ok o := by
  refine (returns_matchesFrom h p).bind fun ms hms => returns_pure ?_
  unfold Store.lookup matchesOf
  rw [matchesFrom_eq_scan h p (holds_empty s), hms]
  rfl

end Reading

namespace Abduction

variable {s : Store} {u : Bool}

/-! ## What conditions contribute -/

/-- What a condition contributes: the greatest strength of the atoms that it denotes, and nothing if
there are none. -/
inductive Contributes (s : Store) (u : Bool) (c : Pattern) : Float → Prop
  | none (h : ∀ id, ¬ s.Denoted c id) : Contributes s u c 0.0
  | some {id : AtomId} (h : s.Denoted c id)
    (hle : ∀ j, s.Denoted c j → strengthOf s u j ≤ strengthOf s u id) :
    Contributes s u c (strengthOf s u id)

theorem inUnit_strengthOf (h : s.Inv) (u : Bool) (id : AtomId) : inUnit (strengthOf s u id) = true := by
  unfold strengthOf
  split
  · split
    · next a ha => exact (h.formed.valid a ((get?_some_iff h.formed.ascending).1 ha).1).strength
    · exact inUnit_zero
  · exact inUnit_one

/-- The strongest atom so far is one of those seen, and none of them is stronger. -/
theorem foldl_strongest {strength : AtomId → Float} (hunit : ∀ id, inUnit (strength id) = true)
    (ids : List AtomId) (id : AtomId) : ∃ j ∈ id :: ids,
      ids.foldl (fun best i => if strength i > best.2 then (i, strength i) else best)
        (id, strength id) = (j, strength j) ∧ ∀ i ∈ id :: ids, strength i ≤ strength j := by
  induction ids generalizing id with
  | nil => exact ⟨id, List.mem_cons_self .., rfl, fun i hi => by
      rw [List.mem_singleton.1 hi]
      exact le_refl_of_inUnit (hunit id)⟩
  | cons k ids ih =>
    rw [List.foldl_cons]
    by_cases hgt : strength k > strength id
    · obtain ⟨j, hj, hfold, hall⟩ := ih k
      rw [if_pos hgt]
      refine ⟨j, List.mem_cons_of_mem _ hj, hfold, List.forall_mem_cons.2 ⟨?_, hall⟩⟩
      exact le_of_le_of_inUnit (hunit k) (hunit j) (le_of_lt_of_inUnit (hunit id) (hunit k) hgt)
        (hall k (List.mem_cons_self ..))
    · obtain ⟨j, hj, hfold, hall⟩ := ih id
      rw [if_neg hgt]
      obtain ⟨hid, hids⟩ := List.forall_mem_cons.1 hall
      refine ⟨j, ?_, hfold, List.forall_mem_cons.2 ⟨hid, List.forall_mem_cons.2 ⟨?_, hids⟩⟩⟩
      · rcases List.mem_cons.1 hj with rfl | hj
        · exact List.mem_cons_self ..
        · exact List.mem_cons_of_mem _ (List.mem_cons_of_mem _ hj)
      · exact le_of_le_of_inUnit (hunit id) (hunit j)
          (le_of_not_lt_of_inUnit (hunit k) (hunit id) hgt) hid

theorem strongest_eq_none_iff {strength : AtomId → Float} {ids : List AtomId} :
    strongest strength ids = none ↔ ids = [] := by
  cases ids <;> simp [strongest]

theorem strongest_spec {strength : AtomId → Float} (hunit : ∀ id, inUnit (strength id) = true)
    {ids : List AtomId} {best : AtomId × Float} (h : strongest strength ids = some best) :
    best.1 ∈ ids ∧ best.2 = strength best.1 ∧ ∀ i ∈ ids, strength i ≤ best.2 := by
  cases ids with
  | nil => cases h
  | cons id ids =>
    obtain ⟨j, hj, hfold, hall⟩ := foldl_strongest hunit ids id
    have hbest := hfold.symm.trans (Option.some.inj h)
    subst hbest
    exact ⟨hj, rfl, hall⟩

section

variable (h : s.Inv)
include h

/-- The support of a condition is what it contributes, given by an atom that it denotes. -/
theorem returns_support (u : Bool) (c : Pattern) : (support s u c).Returns fun o =>
    Contributes s u c (o.elim 0.0 Prod.snd) ∧ ∀ best, o = some best → best.1 ∈ s.ids := by
  unfold support
  refine (Reading.returns_matchesFrom h c).bind fun ms hms => Reading.returns_pure ?_
  subst hms
  have hdenoted : ∀ id, id ∈ (s.scan c .empty).map Match.atomId ↔ s.Denoted c id := by
    intro id
    constructor
    · intro hid
      obtain ⟨m, hm, rfl⟩ := List.mem_map.1 hid
      exact denoted_of_mem_scan hm
    · intro hd
      obtain ⟨m, hm, rfl⟩ := exists_mem_scan hd
      exact List.mem_map_of_mem hm
  cases hbest : strongest (strengthOf s u) ((s.scan c .empty).map Match.atomId) with
  | none =>
    refine ⟨.none fun id hd => ?_, nofun⟩
    have hmem := (hdenoted id).2 hd
    rw [strongest_eq_none_iff.1 hbest] at hmem
    cases hmem
  | some best =>
    obtain ⟨hmem, hstrength, hall⟩ := strongest_spec (inUnit_strengthOf h u) hbest
    have hd := (hdenoted best.1).1 hmem
    refine ⟨?_, fun _ heq => Option.some.inj heq ▸ hd.1⟩
    rw [Option.elim_some, hstrength]
    exact .some hd fun j hj => hstrength ▸ hall j ((hdenoted j).2 hj)

variable (hp : s.Plain)
include hp

theorem returns_supports (u : Bool) (cs : List Pattern) : (supports s u cs).Returns fun r =>
    List.Forall₂ (Contributes s u) cs r.1 := by
  induction cs with
  | nil => exact Reading.returns_pure .nil
  | cons c cs ih =>
    unfold supports
    refine (returns_support h u c).bind fun o ⟨hcontributes, hstored⟩ => ?_
    cases o with
    | none => exact ih.bind fun r hr => Reading.returns_pure (.cons hcontributes hr)
    | some best =>
      have htext := toText_eq_treeOf h hp (hstored best rfl)
      exact (Reading.returns_lift (P := fun _ => True) htext trivial).bind fun _ _ =>
        ih.bind fun r hr => Reading.returns_pure (.cons hcontributes hr)

/-! ## What stored statements leave of it -/

/-- What is left of consistency after a statement: it counts as strong as the atom that it is stored
in. -/
def confirmed (s : Store) (u : Bool) (x : Float) (p : Pattern) : Float :=
  match p.isGround, s.lookup p with
  | true, .ok (some id) => if u then x * strengthOf s true id else x
  | _, _ => x

theorem returns_confirm (u : Bool) (ps : List Pattern) (x : Float) :
    (confirm s u ps x).Returns fun r => r.1 = ps.foldl (confirmed s u) x := by
  induction ps generalizing x with
  | nil => exact Reading.returns_pure rfl
  | cons p ps ih =>
    unfold confirm
    cases hground : p.isGround with
    | false =>
      have hsame : confirmed s u x p = x := by
        unfold confirmed
        rw [hground]
      rw [List.foldl_cons, hsame]
      exact ih x
    | true =>
      refine (Reading.returns_lookup h p).bind fun o ho => ?_
      have hfound := (lookup_eq_iff h).1 ho
      have hscaled : confirmed s u x p = o.elim x fun id => if u then x * strengthOf s true id else x := by
        unfold confirmed
        rw [hground, ho]
        cases o <;> rfl
      rw [List.foldl_cons, hscaled]
      cases o with
      | none => exact ih x
      | some id =>
        have htext := toText_eq_treeOf h hp hfound.denoted.1
        exact (Reading.returns_lift (P := fun _ => True) htext trivial).bind fun _ _ =>
          (ih _).bind fun r hr => Reading.returns_pure hr

end

/-! ## Scores -/

/-- The hypothesis of a candidate, with the names that are made for its place. -/
def placed (e : Hypothesis × Nat) : Hypothesis := e.1.renamed ("_h" ++ toString e.2)

/-- How a candidate is scored: under the unifier of the observation and what it predicts, its prior
times its consistency, which is the mean of what its conditions contribute, scaled by its stored
statements. -/
structure Explains (s : Store) (u : Bool) (observation : Pattern) (e : Hypothesis × Nat)
    (θ : Substitution) (xs : List Float) (sc : Scored) : Prop where
  unifier : Unification.unify observation (placed e).predicts .empty = some θ
  contributions : List.Forall₂ (Contributes s u) ((placed e).requires.map θ.apply) xs
  name : sc.name = e.1.name
  prior : sc.prior = e.1.prior
  statement : sc.statement =
    " AND ".intercalate (((placed e).statements.map θ.apply).map Pattern.toText)
  consistency : sc.consistency = ((placed e).statements.map θ.apply).foldl (confirmed s u)
    (if xs.isEmpty then 1.0 else mean xs)
  plausibility : sc.plausibility = e.1.prior.toFloat * sc.consistency

theorem returns_score (h : s.Inv) (hp : s.Plain) {observation : Pattern} {e : Hypothesis × Nat}
    {θ : Substitution}
    (hθ : Unification.unify observation (placed e).predicts .empty = some θ) :
    (score s u (placed e) θ observation).Returns fun sc =>
      ∃ xs, Explains s u observation e θ xs sc := by
  unfold score
  refine (returns_supports h hp u _).bind fun r hr => ?_
  refine (returns_confirm h hp u _ _).bind fun r' hr' => ?_
  refine Reading.returns_pure ⟨r.1, hθ, hr, rfl, rfl, rfl, hr', rfl⟩

/-! ## Candidates that account for an observation -/

end Abduction

namespace Hypothesis

/-- The rule that derives what a hypothesis predicts from all it rests on. -/
def rule (h : Hypothesis) : Rule :=
  ⟨h.name, h.statements ++ h.requires, h.predicts, h.prior, .null, .null, true⟩

/-- Whether no variable of a hypothesis has an underscore. -/
def Plain (h : Hypothesis) : Prop := h.rule.Plain

/-- Whether what a hypothesis predicts has an instance in common with an observation. The variables
of the two are different ones, even those of one name. -/
def Accounts (h : Hypothesis) (observation : Pattern) : Prop :=
  ∃ σ τ : Valuation, observation.subst σ = h.predicts.subst τ

theorem ne_append_place {v : String} (hv : '_' ∉ v.toList) (w : String) (i : Nat) :
    v ≠ w ++ ("_h" ++ toString i) := by
  rintro rfl
  apply hv
  simp [String.toList_append]

theorem Plain.unify_ne_none_iff {h : Hypothesis} (hplain : h.Plain) {observation : Pattern}
    (hobs : ∀ v ∈ observation.vars, '_' ∉ v.toList) (i : Nat) :
    Unification.unify observation (h.renamed ("_h" ++ toString i)).predicts .empty ≠ none ↔
      h.Accounts observation :=
  Rule.unify_ne_none_iff_of_free (r := h.rule) (fun v hv w => ne_append_place (hplain v hv) w i)
    fun v hv w => ne_append_place (hobs v hv) w i

end Hypothesis

/-- How far a list is gone through in search of some items: as far as they are all found, or to the
end. -/
structure Examined {α : Type} (p : α → Bool) (xs : List α) (room k : Nat) : Prop where
  within : k ≤ xs.length
  full : k < xs.length → ((xs.take k).filter p).length = room
  soonest : ∀ j < k, ((xs.take j).filter p).length < room

namespace Examined

variable {α : Type} {p : α → Bool} {x : α} {xs : List α} {room k : Nat}

theorem skip (h : Examined p xs room k) (hroom : 0 < room) (hx : ¬ p x = true) :
    Examined p (x :: xs) room (k + 1) where
  within := Nat.succ_le_succ h.within
  full hk := by
    rw [List.take_succ_cons, List.filter_cons_of_neg hx]
    exact h.full (Nat.lt_of_succ_lt_succ hk)
  soonest j hj := by
    cases j with
    | zero => exact hroom
    | succ j =>
      rw [List.take_succ_cons, List.filter_cons_of_neg hx]
      exact h.soonest j (Nat.lt_of_succ_lt_succ hj)

theorem find (h : Examined p xs room k) (hx : p x = true) :
    Examined p (x :: xs) (room + 1) (k + 1) where
  within := Nat.succ_le_succ h.within
  full hk := by
    rw [List.take_succ_cons, List.filter_cons_of_pos hx, List.length_cons,
      h.full (Nat.lt_of_succ_lt_succ hk)]
  soonest j hj := by
    cases j with
    | zero => exact Nat.succ_pos room
    | succ j =>
      rw [List.take_succ_cons, List.filter_cons_of_pos hx, List.length_cons]
      exact Nat.succ_lt_succ (h.soonest j (Nat.lt_of_succ_lt_succ hj))

/-- Items are left exactly if the last one that there was room for came before them. -/
theorem lt_length_iff (h : Examined p xs room k) :
    k < xs.length ↔ ∃ j < xs.length, ((xs.take j).filter p).length = room := by
  constructor
  · exact fun hk => ⟨k, hk, h.full hk⟩
  · rintro ⟨j, hj, hfull⟩
    exact Nat.lt_of_le_of_lt (Nat.le_of_not_lt fun hjk => Nat.ne_of_lt (h.soonest j hjk) hfull) hj

/-- What is found is the first that there is. -/
theorem filter_take (h : Examined p xs room k) :
    (xs.take k).filter p = (xs.filter p).take room := by
  rcases Nat.lt_or_eq_of_le h.within with hk | rfl
  · have hsplit : xs.filter p = (xs.take k).filter p ++ (xs.drop k).filter p := by
      rw [← List.filter_append, List.take_append_drop]
    rw [hsplit, ← h.full hk, List.take_left]
  · rw [List.take_length, List.take_of_length_le]
    cases xs using List.reverseRecOn with
    | nil => exact Nat.zero_le _
    | append_singleton xs x =>
      -- Before the last item there was room for one more.
      have hroom := h.soonest xs.length (by rw [List.length_append, List.length_singleton]; omega)
      rw [List.take_left] at hroom
      rw [List.filter_append, List.length_append]
      have hone := List.length_filter_le p [x]
      rw [List.length_singleton] at hone
      omega

end Examined

namespace Abduction

open Classical in
/-- Whether the hypothesis of a candidate accounts for an observation. -/
noncomputable def accounts (observation : Pattern) (e : Hypothesis × Nat) : Bool :=
  decide (e.1.Accounts observation)

theorem accounts_iff {observation : Pattern} {e : Hypothesis × Nat} :
    accounts observation e = true ↔ e.1.Accounts observation := by
  simp only [accounts, decide_eq_true_iff]

/-- The candidates that generate hypotheses: the first that account for the observation, as many as
results may be given. -/
noncomputable def generated (params : Params) (observation : Pattern) (hyps : List Hypothesis) :
    List (Hypothesis × Nat) :=
  (hyps.zipIdx.filter (accounts observation)).take params.maxResults

variable {s : Store} {params : Params} {observation : Pattern}

/-- What comes of examining hypotheses from some place on while there is room for some more scores:
those of the hypotheses that account for the observation, after the scores there were before. -/
def Scores (s : Store) (params : Params) (observation : Pattern) (index : Nat)
    (hyps : List Hypothesis) (room : Nat) (scored : List Scored) (r : Outcome × List Scored) : Prop :=
  ∃ k scs, r = (⟨decide (k < hyps.length), false, index + k⟩, scored ++ scs) ∧
    Examined (accounts observation) (hyps.zipIdx index) room k ∧
    List.Forall₂ (fun e sc => ∃ θ xs, Explains s params.useUncertainty observation e θ xs sc)
      (((hyps.zipIdx index).take k).filter (accounts observation)) scs

section

variable {hyp : Hypothesis} {hyps : List Hypothesis} {index room : Nat} {scored : List Scored}
  {r : Outcome × List Scored}

theorem scores_nil :
    Scores s params observation index [] room scored (⟨false, false, index⟩, scored) := by
  refine ⟨0, [], ?_, ⟨Nat.le_refl 0, nofun, nofun⟩, .nil⟩
  rw [List.append_nil]
  rfl

theorem scores_full :
    Scores s params observation index (hyp :: hyps) 0 scored (⟨true, false, index⟩, scored) := by
  refine ⟨0, [], ?_, ⟨Nat.zero_le _, fun _ => rfl, nofun⟩, .nil⟩
  rw [List.append_nil]
  rfl

theorem outcome_cons (k : Nat) : (⟨decide (k < hyps.length), false, index + 1 + k⟩ : Outcome) =
    ⟨decide (k + 1 < (hyp :: hyps).length), false, index + (k + 1)⟩ := by
  simp only [List.length_cons, Nat.add_lt_add_iff_right, Nat.add_assoc, Nat.add_comm 1 k]

theorem Scores.skip (h : Scores s params observation (index + 1) hyps (room + 1) scored r)
    (hnot : ¬ accounts observation (hyp, index) = true) :
    Scores s params observation index (hyp :: hyps) (room + 1) scored r := by
  obtain ⟨k, scs, rfl, hexamined, hscs⟩ := h
  refine ⟨k + 1, scs, congrArg (·, scored ++ scs) (outcome_cons k),
    hexamined.skip (Nat.succ_pos room) hnot, ?_⟩
  rw [List.zipIdx_cons, List.take_succ_cons, List.filter_cons_of_neg hnot]
  exact hscs

theorem Scores.find {sc : Scored}
    (h : Scores s params observation (index + 1) hyps room (scored ++ [sc]) r)
    (haccounts : accounts observation (hyp, index) = true)
    (hsc : ∃ θ xs, Explains s params.useUncertainty observation (hyp, index) θ xs sc) :
    Scores s params observation index (hyp :: hyps) (room + 1) scored r := by
  obtain ⟨k, scs, rfl, hexamined, hscs⟩ := h
  refine ⟨k + 1, sc :: scs, ?_, hexamined.find haccounts, ?_⟩
  · rw [outcome_cons, List.append_assoc]
    rfl
  · rw [List.zipIdx_cons, List.take_succ_cons, List.filter_cons_of_pos haccounts]
    exact .cons hsc hscs

end

/-- Candidates are examined until there are enough hypotheses, each with its score. -/
theorem returns_examine (h : s.Inv) (hp : s.Plain)
    (hobs : ∀ v ∈ observation.vars, '_' ∉ v.toList) {candidates : List Candidate}
    {hyps : List Hypothesis}
    (hread : List.Forall₂ (fun c h => c.hypothesis = .ok h) candidates hyps)
    (hplain : ∀ h ∈ hyps, h.Plain) (index : Nat) {scored : List Scored} {room : Nat}
    (hroom : scored.length + room = params.maxResults) :
    (examine s params observation index scored candidates).Returns
      (Scores s params observation index hyps room scored) := by
  -- Along the candidates; `room` is how many more of them may be scored.
  induction hread generalizing index scored room with
  | nil => exact Reading.returns_pure scores_nil
  | @cons c hyp cs hyps hc hcs ih =>
    obtain ⟨hhyp, hhyps⟩ := List.forall_mem_cons.1 hplain
    unfold examine
    refine (Reading.returns_lift (P := fun a => a = hyp) hc rfl).bind fun a ha => ?_
    subst a
    cases room with
    | zero =>
      rw [if_pos (by omega)]
      exact Reading.returns_pure scores_full
    | succ room =>
      rw [if_neg (by omega)]
      have hunify := hhyp.unify_ne_none_iff hobs index
      dsimp only
      cases hθ : Unification.unify observation (hyp.renamed ("_h" ++ toString index)).predicts
          .empty with
      | none =>
        have hnot : ¬ accounts observation (hyp, index) = true :=
          fun haccounts => hunify.2 (accounts_iff.1 haccounts) hθ
        exact (ih hhyps (index + 1) hroom).mono fun r hr => hr.skip hnot
      | some θ =>
        have haccounts : accounts observation (hyp, index) = true :=
          accounts_iff.2 (hunify.1 (by rw [hθ]; exact Option.some_ne_none θ))
        refine (returns_score h hp (e := (hyp, index)) hθ).bind fun sc ⟨xs, hxs⟩ => ?_
        have hroom' : (scored ++ [sc]).length + room = params.maxResults := by
          rw [List.length_append, List.length_singleton]
          omega
        exact (ih hhyps (index + 1) hroom').mono fun r hr => hr.find haccounts ⟨θ, xs, hxs⟩

/-- Plausibilities that are numbers are put in order. -/
theorem ranked_by_plausibility {scored : List Scored}
    (hnumbers : ∀ sc ∈ scored, sc.plausibility ≤ sc.plausibility) :
    Ranked (fun sc sc' => decide (sc'.plausibility ≤ sc.plausibility)) scored
      (scored.mergeSort fun sc sc' => decide (sc'.plausibility ≤ sc.plausibility)) := by
  refine ranked_mergeSort (P := fun sc => sc.plausibility ≤ sc.plausibility) ?_ ?_ hnumbers
  · intro a b c _ _ _ hab hbc
    rw [decide_eq_true_iff] at hab hbc ⊢
    exact double_le_trans hbc hab
  · intro a b ha hb
    rw [decide_eq_true_iff, decide_eq_true_iff]
    exact double_le_total hb ha

/-- Whether a result ranks the hypotheses that account for an observation. -/
structure Ranks (s : Store) (params : Params) (observation : Pattern) (hyps : List Hypothesis)
    (r : Result) : Prop where
  examined : Examined (accounts observation) hyps.zipIdx params.maxResults r.outcome.stepsTaken
  boundReached : r.outcome.boundReached = true ↔ ∃ j < hyps.length,
    ((hyps.zipIdx.take j).filter (accounts observation)).length = params.maxResults
  ranked : ∃ scored : List Scored,
    List.Forall₂ (fun e sc => ∃ θ xs, Explains s params.useUncertainty observation e θ xs sc)
      (generated params observation hyps) scored ∧ r.hypotheses.Perm scored ∧
    ((∀ sc ∈ scored, sc.plausibility ≤ sc.plausibility) →
      Ranked (fun sc sc' => decide (sc'.plausibility ≤ sc.plausibility)) scored r.hypotheses ∧
      ∀ best, r.hypotheses.head? = some best → ∀ sc ∈ scored, sc.plausibility ≤ best.plausibility)

theorem returns_explain (h : s.Inv) (hp : s.Plain)
    (hobs : ∀ v ∈ observation.vars, '_' ∉ v.toList) {candidates : List Candidate}
    {hyps : List Hypothesis} (hread : candidates.mapM Candidate.hypothesis = .ok hyps)
    (hplain : ∀ h ∈ hyps, h.Plain) :
    (explain s observation candidates params).Returns (Ranks s params observation hyps) := by
  unfold explain
  refine (returns_examine h hp hobs (forall₂_of_mapM hread) hplain 0 (Nat.zero_add _)).bind ?_
  rintro _ ⟨k, scored, rfl, hexamined, hscored⟩
  rw [hexamined.filter_take] at hscored
  refine Reading.returns_pure ⟨?_, ?_, scored, hscored, List.mergeSort_perm .., fun hnumbers => ?_⟩
  · rw [Nat.zero_add]
    exact hexamined
  · have hleft := hexamined.lt_length_iff
    rw [List.length_zipIdx] at hleft
    exact decide_eq_true_iff.trans hleft
  · have hranked := ranked_by_plausibility hnumbers
    refine ⟨hranked, fun best hbest sc hsc => ?_⟩
    have hself := hnumbers best (List.mem_mergeSort.1 (List.mem_of_head? hbest))
    exact of_decide_eq_true (hranked.head_le hbest (decide_eq_true hself) sc hsc)

end Abduction

theorem RuleBase.plain_of_mem_hypotheses {b : RuleBase}
    (hrules : ∀ r ∈ b.rules, r.enabled = true → r.Plain) {h : Hypothesis} (hh : h ∈ b.hypotheses) :
    h.Plain := by
  obtain ⟨r, hr, rfl⟩ := List.mem_map.1 hh
  obtain ⟨hmem, he⟩ := mem_inOrder.1 hr
  have hrule := hrules r hmem he
  unfold Hypothesis.Plain Rule.Plain Rule.names Hypothesis.rule Rule.hypothesis at *
  rw [List.append_nil]
  exact hrule

/-- An observation is always given a result, which ranks the explicit hypotheses and, after them, the
enabled rules by descending priority. -/
theorem Abduction.explain_ranks {s : Store} (hs : s.Reachable) (hp : s.Plain) {observation : Pattern}
    (hobs : ∀ v ∈ observation.vars, '_' ∉ v.toList) {explicit : List Candidate}
    {given : List Hypothesis} (hgiven : explicit.mapM Candidate.hypothesis = .ok given)
    (hplain : ∀ h ∈ given, h.Plain) {b : RuleBase}
    (hrules : ∀ r ∈ b.rules, r.enabled = true → r.Plain) (params : Params) (n : Nat) :
    ((∀ r ∈ b.rules, r.enabled = true → r.rank.agrees r.rank = true) →
      Ranked (fun r r' => !r.rank.isLess r'.rank) (b.rules.filter Rule.enabled) b.inOrder) ∧
    ∃ r m, StateT.run (ExceptT.run
        (explain s observation (explicit ++ b.hypotheses.map .ready) params)) n = (.ok r, m) ∧
      Ranks s params observation (given ++ b.inOrder.map Rule.hypothesis) r := by
  refine ⟨RuleBase.ranked_inOrder, ?_⟩
  have hready : (b.hypotheses.map Candidate.ready).mapM Candidate.hypothesis = .ok b.hypotheses := by
    rw [mapM_eq_ok_iff, List.forall₂_map_left_iff, List.forall₂_same]
    exact fun _ _ => rfl
  refine returns_explain hs.inv hp hobs ?_ ?_ n
  · rw [List.mapM_append, hgiven, hready]
    rfl
  · exact List.forall_mem_append.2 ⟨hplain, fun h => RuleBase.plain_of_mem_hypotheses hrules⟩

namespace Abduction.Pets

/-- A concept. -/
def concept (name : String) : Pattern := .node (.node .concept) name

/-- A statement that one thing is another. -/
def isA (p q : Pattern) : Pattern := .link (.link .inheritance) [p, q]

/-- A store that knows of one cat. -/
def store : Store := ((Store.assert (isA (concept "tom") (concept "cat")) none).run.run .empty).2

/-- Whoever is a cat may be a pet. -/
def pet : Hypothesis := ⟨.text "pet", [isA (.var "$x") (concept "tame")],
  isA (.var "$x") (concept "pet"), .real 0.5, [isA (.var "$x") (concept "cat")]⟩

/-- Whoever is a cat is a mammal. -/
def mammal : Rule := ⟨.text "mammal", [isA (.var "$x") (concept "cat")],
  isA (.var "$x") (concept "mammal"), .real 0.9, .null, .int 0, true⟩

/-- What tom is, with the variable of the hypotheses. -/
def observation : Pattern := isA (concept "tom") (.var "$x")

/-- There is room for one result. -/
def params : Params := { Params.default with maxResults := 1 }

theorem plain_pet : pet.Plain := by
  unfold Hypothesis.Plain Rule.Plain
  decide +kernel

theorem plain_mammal : mammal.Plain := by
  unfold Rule.Plain
  decide +kernel

theorem accounts_pet : pet.Accounts observation :=
  ⟨fun _ => concept "pet", fun _ => concept "tom", rfl⟩

theorem accounts_mammal : mammal.hypothesis.Accounts observation :=
  ⟨fun _ => concept "mammal", fun _ => concept "tom", rfl⟩

theorem inOrder_rules : (RuleBase.mk [mammal]).inOrder = [mammal] := RuleBase.inOrder_singleton rfl

theorem generated_pet :
    generated params observation ([pet] ++ [mammal].map Rule.hypothesis) = [(pet, 0)] := by
  have hpet : accounts observation (pet, 0) = true := accounts_iff.2 accounts_pet
  have hmammal : accounts observation (mammal.hypothesis, 1) = true :=
    accounts_iff.2 accounts_mammal
  unfold generated
  rw [show ([pet] ++ [mammal].map Rule.hypothesis).zipIdx =
    [(pet, 0), (mammal.hypothesis, 1)] from rfl, List.filter_cons_of_pos hpet,
    List.filter_cons_of_pos hmammal]
  rfl

end Abduction.Pets

open Abduction Abduction.Pets in
/-- The hypothesis explains what tom is, and the rule comes too late for it. -/
theorem Abduction.explain_ranks_pets : Pets.store.Reachable ∧ Pets.store.Plain ∧ pet.Plain ∧
    mammal.Plain ∧ ∃ r m, StateT.run (ExceptT.run (explain Pets.store Pets.observation
        ([.ready pet] ++ (RuleBase.mk [mammal]).hypotheses.map .ready) Pets.params)) 0 = (.ok r, m) ∧
      r.hypotheses.map Scored.name = [.text "pet"] ∧ r.outcome.boundReached = true := by
  have hs : Pets.store.Reachable := .single _
  have hp : Pets.store.Plain := by
    unfold Store.Plain
    decide +kernel
  have hobs : ∀ v ∈ Pets.observation.vars, '_' ∉ v.toList := by decide +kernel
  have hrules : ∀ r ∈ (RuleBase.mk [mammal]).rules, r.enabled = true → r.Plain := by
    intro r hr _
    rw [List.mem_singleton.1 hr]
    exact plain_mammal
  obtain ⟨-, r, m, hrun, hranks⟩ := @explain_ranks Pets.store hs hp Pets.observation hobs
    [.ready pet] [pet] rfl (List.forall_mem_singleton.2 plain_pet) ⟨[mammal]⟩ hrules Pets.params 0
  rw [inOrder_rules] at hranks
  refine ⟨hs, hp, plain_pet, plain_mammal, r, m, hrun, ?_, ?_⟩
  · obtain ⟨scored, hscored, hperm, -⟩ := hranks.ranked
    rw [generated_pet] at hscored
    obtain ⟨sc, _, ⟨_, _, hsc⟩, hnil, rfl⟩ := List.forall₂_cons_left_iff.1 hscored
    rw [List.forall₂_nil_left_iff.1 hnil] at hperm
    rw [List.perm_singleton.1 hperm, List.map_singleton, hsc.name]
    rfl
  · refine hranks.boundReached.2 ⟨1, by decide, ?_⟩
    have hpet : accounts Pets.observation (pet, 0) = true := accounts_iff.2 accounts_pet
    rw [show ([pet] ++ [mammal].map Rule.hypothesis).zipIdx.take 1 = [(pet, 0)] from rfl,
      List.filter_cons_of_pos hpet]
    rfl

end Credence
