import Credence.Proofs.Inference.Backward.Report
import Credence.Proofs.Search.Coverage
import Credence.Proofs.Search.Erasure
import Credence.Proofs.Search.Parallel
/-!
# The search with all its bounds noted

The search leaves out facts beyond the number of results, and rules for an open goal,
without a word. It passes over an atom that is not the one bound to a variable, though
both may have one tree. Here is the same search with a note at each of these places: it
says that a bound was reached when a goal matches more facts than are tried, when an atom
whose tree is an instance of the goal does not match it, and when an open goal that still
holds variables uses no rules. It gives the same answers in the same order.
-/

namespace Credence.Backward

open Pattern Substitution Search

/-- Whether a goal matches more facts than are tried. -/
def Problem.overflows (pb : Problem) (goal : Pattern) : Bool :=
  match pb.store.matchesOf goal with
  | .ok ms => ms.length > pb.params.maxResults
  | .error _ => false

/-- Whether an atom whose tree is an instance of a goal does not match it. -/
def Problem.overlooks (pb : Problem) (goal : Pattern) : Bool :=
  pb.store.ids.any fun id =>
    (Unification.unify goal (pb.store.treeOf id) .empty).isSome &&
      (pb.store.matchAtom goal id .empty).isNone

/-- Whether facts that a goal asks for are not tried. -/
def Problem.misses (pb : Problem) (goal : Pattern) : Bool := pb.overflows goal || pb.overlooks goal

/-- Notes that a bound was reached, if one was. -/
def State.note (reached : Bool) (s : State) : State :=
  { s with boundReached := s.boundReached || reached }

/-- The proofs of a goal by a rule, given those of premises. -/
def tried (prove : Pattern → Substitution → Proving (Substitution × Proof)) (goal : Pattern)
    (θ : Substitution) (depth : Nat) (r : Rule) : Proving (Substitution × Proof) :=
  match Unification.unify goal r.conclusion θ with
  | none => .done
  | some θ => (proveAll prove r.premises θ).map fun (θ, ps) => (θ, byRule r goal depth θ ps)

/-- The proofs of a goal by rules, given those of premises below the goals that are open; a note if
the goal is open, holds variables and so uses no rules. -/
def Problem.byRulesNoted (pb : Problem)
    (prove : List String → Pattern → Substitution → Proving (Substitution × Proof))
    (open_ : List String) (goal : Pattern) (θ : Substitution) (depth : Nat) :
    Proving (Substitution × Proof) :=
  if open_.contains goal.variantKey then .act (State.note (!goal.isGround)) fun _ => .done
  else .act (fun s => { s with fresh := s.fresh + 1 }) fun s =>
    Search.ofEach (tried (prove (goal.variantKey :: open_)) goal θ depth)
      (pb.rules.rulesFor goal (toString s.fresh ++ "_"))

/-- The proofs of a goal, with a note of everything that is left out. -/
def Problem.proveNoted (pb : Problem) :
    Nat → Nat → List String → Pattern → Substitution → Proving (Substitution × Proof)
  | levels, depth, open_, goal, θ =>
    .act (State.poll pb.deadline) fun s =>
      if s.expired then .done
      else match levels with
        | 0 => .act (fun s => { s with boundReached := true }) fun _ => .done
        | levels + 1 =>
          let current := θ.apply goal
          let found := Store.lookupsFor current .empty
          .act (fun s => { s with expansions := s.expansions + 1, lookups := s.lookups + found })
            fun _ =>
              match pb.facts current with
              | .error e => .fail e
              | .ok ms =>
                .act (State.note (pb.misses current)) fun _ =>
                  (Search.ofEach (pb.byFact current θ depth) ms).append fun _ =>
                    pb.byRulesNoted (pb.proveNoted levels (depth + 1)) open_ current θ depth

/-- Whether the search for a goal leaves out a fact that one of its goals asks for, or rules for an
open goal with variables, or goals below the depth allowed. -/
def Problem.leavesOut (pb : Problem) (goal : Pattern) : Bool :=
  ((pb.proveNoted (pb.params.maxSteps + 1) 0 [] goal .empty).fold (Drawn.step pb.params)
    ⟨none, 0, false⟩ .start).2.boundReached

variable {pb : Problem}

/-- Nothing is overlooked where atoms are told apart by their trees. -/
theorem overlooks_eq_false (h : pb.store.Inv) (hp : pb.store.Plain) (hd : pb.store.Distinct)
    (goal : Pattern) : pb.overlooks goal = false := by
  refine List.any_eq_false.2 fun id hid hover => ?_
  obtain ⟨hsome, hnone⟩ := Bool.and_eq_true_iff.1 hover
  obtain ⟨θ, hθ⟩ := Option.isSome_iff_exists.1 hsome
  have hunifies := Unification.unifies_of_unify acyclic_empty hθ
  -- A solution of the bindings makes the goal the tree of the atom, which has no variables.
  obtain ⟨-, heq⟩ := (hunifies.solves_iff _).1 hunifies.acyclic.solves_value
  rw [subst_of_isGround (Store.isGround_treeOf h hp hid)] at heq
  rcases Store.matchAtom_of_instance h hp (Store.reads_empty _ _) hid heq with ⟨b, hb, -⟩ | ⟨-, hno⟩
  · rw [hb] at hnone
    cases hnone
  · exact hno hd

/-! ## The same answers -/

/-- States that differ in the note of a bound only, which the first has if the second has it. -/
def Noted (s t : State) : Prop :=
  ∃ reached, (t.boundReached = true → reached = true) ∧ s = { t with boundReached := reached }

theorem noted_refl (s : State) : Noted s s := ⟨s.boundReached, id, rfl⟩

theorem Noted.poll {s t : State} (h : Noted s t) (d : Deadline) : Noted (s.poll d) (t.poll d) := by
  obtain ⟨b, hb, rfl⟩ := h
  exact ⟨b, hb, rfl⟩

theorem Noted.note {s t : State} (h : Noted s t) (reached : Bool) : Noted (s.note reached) t := by
  obtain ⟨b, hb, rfl⟩ := h
  refine ⟨b || reached, fun ht => ?_, rfl⟩
  rw [hb ht]
  rfl

theorem erases_byFact (goal : Pattern) (θ : Substitution) (depth : Nat) (m : Match) :
    Erases Noted (pb.byFact goal θ depth m) (pb.byFact goal θ depth m) := by
  unfold Problem.byFact
  split
  · exact .fail _
  · exact .yield _ .done

theorem erases_proveAll {prove prove' : Pattern → Substitution → Proving (Substitution × Proof)}
    (h : ∀ g θ, Erases Noted (prove g θ) (prove' g θ)) (goals : List Pattern) (θ : Substitution) :
    Erases Noted (proveAll prove goals θ) (proveAll prove' goals θ) := by
  induction goals generalizing θ with
  | nil => exact .yield _ .done
  | cons g gs ih =>
    unfold proveAll
    exact (h g θ).bind fun a => (ih a.1).map _

/-- The notes change no answer. -/
theorem erases_prove (pb : Problem) (levels depth : Nat) (open_ : List String) (goal : Pattern)
    (θ : Substitution) :
    Erases Noted (pb.proveNoted levels depth open_ goal θ)
      (pb.prove levels depth open_ goal θ) := by
  induction levels generalizing depth open_ goal θ with
  | zero =>
    unfold Problem.proveNoted Problem.prove
    refine .act (fun s t h => h.poll _) fun s t h => ?_
    obtain ⟨b, hb, rfl⟩ := h
    dsimp only
    split
    · exact .done
    · refine .act (fun s t h => ?_) fun _ _ _ => .done
      obtain ⟨b, _, rfl⟩ := h
      exact ⟨true, fun _ => rfl, rfl⟩
  | succ levels ih =>
    unfold Problem.proveNoted Problem.prove
    refine .act (fun s t h => h.poll _) fun s t h => ?_
    obtain ⟨b, hb, rfl⟩ := h
    dsimp only
    split
    · exact .done
    · refine .act (fun s t h => ?_) fun _ _ _ => ?_
      · obtain ⟨b, hb, rfl⟩ := h
        exact ⟨b, hb, rfl⟩
      cases pb.facts (θ.apply goal) with
      | error e => exact .fail e
      | ok ms =>
        refine .note (fun s t h => h.note _) fun _ => ?_
        refine (erases_ofEach (erases_byFact _ _ _) ms).append ?_
        unfold Problem.byRulesNoted
        split
        · exact .note (fun s t h => h.note _) fun _ => .done
        · refine .act (fun s t h => ?_) fun s t h => ?_
          · obtain ⟨b, hb, rfl⟩ := h
            exact ⟨b, hb, rfl⟩
          obtain ⟨b, hb, rfl⟩ := h
          refine erases_ofEach (fun r => ?_) _
          unfold tried
          cases Unification.unify (θ.apply goal) r.conclusion θ with
          | none => exact .done
          | some θ₁ => exact (erases_proveAll (ih _ _) _ θ₁).map _

/-- Where nothing is noted, the search runs in the same way without notes. -/
theorem fold_prove {levels depth : Nat} {open_ : List String} {goal : Pattern} {θ : Substitution}
    {step : Drawn → Substitution × Proof → Drawn × Bool} {d : Drawn} {s t : State}
    {out : Except Error Drawn}
    (h : (pb.proveNoted levels depth open_ goal θ).fold step d s = (out, t))
    (ht : t.boundReached = false) : (pb.prove levels depth open_ goal θ).fold step d s = (out, t) := by
  obtain ⟨hsame, hnoted⟩ := (erases_prove pb levels depth open_ goal θ).fold step d
    (noted_refl s)
  rw [h] at hsame hnoted
  generalize (pb.prove levels depth open_ goal θ).fold step d s = run at hsame hnoted ⊢
  obtain ⟨out', s'⟩ := run
  cases hsame
  obtain ⟨b, hb, rfl⟩ : Noted t s' := hnoted
  have hreached : s'.boundReached = b := by
    cases ht
    exact Bool.eq_false_iff.2 fun hr => Bool.false_ne_true (hb hr)
  rw [← hreached]

/-! ## Searches without notes -/

/-- Whether a state is in time and notes nothing. -/
structure State.Calm (s : State) : Prop where
  inTime : s.expired = false
  boundReached : s.boundReached = false
  incomplete : s.incomplete = false

theorem State.Calm.poll {s : State} (h : s.Calm) (ht : pb.deadline.timeout = none) :
    (s.poll pb.deadline).Calm := by
  unfold State.poll Deadline.poll
  rw [ht]
  exact ⟨rfl, h.boundReached, by simp [h.incomplete]⟩

theorem State.Calm.note {s : State} (h : s.Calm) {reached : Bool} (hr : reached = false) :
    (s.note reached).Calm :=
  ⟨h.inTime, by simp [State.note, h.boundReached, hr], h.incomplete⟩

section

variable {goal : Pattern} {θ θ₁ : Substitution} {depth : Nat} {open_ : List String}
  {prove : Pattern → Substitution → Proving (Substitution × Proof)}

theorem lists_byFact (m : Match) (h : extend pb.store θ m.bindings = .ok θ₁) :
    Lists State.Calm (ofEach (pb.byFact goal θ depth) [m])
      [(θ₁, .node (θ₁.apply goal) (pb.confidence m.atomId) depth .fact [])] := by
  refine lists_ofEach_singleton ?_
  unfold Problem.byFact
  rw [h]
  exact .yield .done

theorem lists_proveAll_nil : Lists State.Calm (proveAll prove [] θ) [(θ, [])] := .yield .done

theorem lists_proveAll_cons {g : Pattern} {gs : List Pattern} {a : Substitution × Proof}
    {bs : List (Substitution × List Proof)} (hg : Lists State.Calm (prove g θ) [a])
    (hgs : Lists State.Calm (proveAll prove gs a.1) bs) :
    Lists State.Calm (proveAll prove (g :: gs) θ) (bs.map fun b => (b.1, a.2 :: b.2)) := by
  rw [← List.flatMap_singleton (fun a => bs.map fun b => (b.1, a.2 :: b.2)) a]
  refine hg.bind fun a' ha => ?_
  rw [List.mem_singleton.1 ha]
  exact hgs.map _

theorem lists_proveAll_of_none {g : Pattern} (hg : Lists State.Calm (prove g θ) [])
    (gs : List Pattern) : Lists State.Calm (proveAll prove (g :: gs) θ) [] := by
  rw [← List.flatMap_nil (f := fun _ => [])]
  exact hg.bind nofun

theorem lists_tried (depth : Nat) {r : Rule} (hunify : Unification.unify goal r.conclusion θ = some θ₁)
    {as : List (Substitution × List Proof)}
    (h : Lists State.Calm (proveAll prove r.premises θ₁) as) :
    Lists State.Calm (tried prove goal θ depth r)
      (as.map fun a => (a.1, byRule r goal depth a.1 a.2)) := by
  unfold tried
  rw [hunify]
  exact h.map _

variable (ht : pb.deadline.timeout = none) {levels : Nat} {as : List (Substitution × Proof)}

include ht

section

variable {ms : List Match} (hfacts : pb.facts (θ.apply goal) = .ok ms)
  (hms : Lists State.Calm (ofEach (pb.byFact (θ.apply goal) θ depth) ms) as)
  (hrules : ∀ tag, pb.rules.rulesFor (θ.apply goal) tag = [])

include hfacts hms hrules

/-- A goal to which no rule applies is proven by facts. -/
theorem lists_prove (open_ : List String) :
    Lists State.Calm (pb.prove (levels + 1) depth open_ goal θ) as := by
  unfold Problem.prove
  refine .act (fun s hs => hs.poll ht) fun s hs => ?_
  rw [if_neg (Bool.eq_false_iff.1 hs.inTime)]
  refine .act (fun s hs => ⟨hs.inTime, hs.boundReached, hs.incomplete⟩) fun s hs => ?_
  rw [hfacts, ← List.append_nil as]
  refine hms.append ?_
  split
  · exact .done
  · refine .act (fun s hs => ⟨hs.inTime, hs.boundReached, hs.incomplete⟩) fun s _ => ?_
    rw [hrules]
    exact .done

theorem lists_proveNoted (hmisses : pb.misses (θ.apply goal) = false)
    (hopen : open_.contains (θ.apply goal).variantKey = false) :
    Lists State.Calm (pb.proveNoted (levels + 1) depth open_ goal θ) as := by
  unfold Problem.proveNoted
  refine .act (fun s hs => hs.poll ht) fun s hs => ?_
  rw [if_neg (Bool.eq_false_iff.1 hs.inTime)]
  refine .act (fun s hs => ⟨hs.inTime, hs.boundReached, hs.incomplete⟩) fun s hs => ?_
  rw [hfacts, ← List.append_nil as]
  refine .act (fun s hs => hs.note hmisses) fun s hs => hms.append ?_
  unfold Problem.byRulesNoted
  rw [if_neg (Bool.eq_false_iff.1 hopen)]
  refine .act (fun s hs => ⟨hs.inTime, hs.boundReached, hs.incomplete⟩) fun s _ => ?_
  rw [hrules]
  exact .done

end

section

variable (hfacts : pb.facts goal = .ok []) {β : Type} (step : β → Substitution × Proof → β × Bool)
  (acc : β)

include hfacts

/-- The search for a goal that matches no fact draws the answers of its rules. -/
theorem fold_prove_start (hrules : Lists State.Calm
      (ofEach (tried (pb.prove levels 1 [goal.variantKey]) goal .empty 0)
        (pb.rules.rulesFor goal (toString 1 ++ "_"))) as) :
    ∃ s, s.Calm ∧ (pb.prove (levels + 1) 0 [] goal .empty).fold step acc .start =
      (.ok (draw step as acc), s) := by
  have hpoll := (State.Calm.mk rfl rfl rfl : State.start.Calm).poll ht
  unfold Problem.prove
  rw [fold_act, if_neg (Bool.eq_false_iff.1 hpoll.inTime), fold_act, apply_empty, hfacts]
  dsimp only [ofEach, append]
  rw [List.contains_nil, if_neg Bool.false_ne_true, fold_act]
  refine hrules.fold ?_ step acc
  exact ⟨hpoll.inTime, hpoll.boundReached, hpoll.incomplete⟩

theorem next_prove_start (hrules : Lists State.Calm
      (ofEach (tried (pb.prove levels 1 [goal.variantKey]) goal .empty 0)
        (pb.rules.rulesFor goal (toString 1 ++ "_"))) as) :
    ∃ s, s.Calm ∧ (pb.prove (levels + 1) 0 [] goal .empty).next .start = (.ok as.head?, s) :=
  draw_first as ▸ fold_prove_start ht hfacts (fun _ a => (some a, true)) none hrules

theorem fold_proveNoted_start (hmisses : pb.misses goal = false) (hrules : Lists State.Calm
      (ofEach (tried (pb.proveNoted levels 1 [goal.variantKey]) goal .empty 0)
        (pb.rules.rulesFor goal (toString 1 ++ "_"))) as) :
    ∃ s, s.Calm ∧ (pb.proveNoted (levels + 1) 0 [] goal .empty).fold step acc .start =
      (.ok (draw step as acc), s) := by
  have hpoll := (State.Calm.mk rfl rfl rfl : State.start.Calm).poll ht
  unfold Problem.proveNoted
  rw [fold_act, if_neg (Bool.eq_false_iff.1 hpoll.inTime), fold_act, apply_empty, hfacts]
  dsimp only [ofEach, append]
  unfold Problem.byRulesNoted
  rw [fold_act, List.contains_nil, if_neg Bool.false_ne_true, fold_act]
  refine hrules.fold ?_ step acc
  have hnoted := (State.Calm.mk hpoll.inTime hpoll.boundReached hpoll.incomplete).note hmisses
  exact ⟨hnoted.inTime, hnoted.boundReached, hnoted.incomplete⟩

end

end

/-- A search without answers is reported with its explanation. -/
theorem report_of_next_none {goal : Pattern} {s t : State} {subgoals : List Subgoal}
    {ps : List Proof}
    (h : (pb.prove (pb.params.maxSteps + 1) 0 [] goal .empty).next .start = (.ok none, s))
    (hexplain : pb.explain goal s = (.ok (subgoals, ps), t)) :
    pb.report goal .start = (.ok ⟨⟨t.boundReached, t.incomplete, t.expansions⟩, goal, subgoals,
      Proof.postorderList ps, false, 0.0, .empty⟩, t) := by
  have hsame : { s with boundReached := s.boundReached || false } = s :=
    congrArg (fun b => { s with boundReached := b }) (Bool.or_false _)
  unfold Problem.report
  dsimp only
  rw [fold_of_next_none h]
  dsimp only
  rw [hsame, hexplain]

/-- Going through premises ends without a note, whether or not all of them are proven. -/
def Problem.Passes (pb : Problem) (key : String) (gs : List Pattern) (θ : Substitution) : Prop :=
  ∀ s : State, s.Calm → ∃ x t, pb.provePremises key gs θ s = (.ok x, t) ∧ t.Calm

theorem passes_nil (key : String) (θ : Substitution) : pb.Passes key [] θ :=
  fun s hs => ⟨_, s, rfl, hs⟩

theorem passes_cons {key : String} {g : Pattern} {gs : List Pattern} {θ : Substitution}
    {as : List (Substitution × Proof)}
    (hg : Lists State.Calm (pb.prove pb.params.maxSteps 1 [key] g θ) as)
    (hgs : ∀ a ∈ as.head?, pb.Passes key gs a.1) : pb.Passes key (g :: gs) θ := by
  intro s hs
  obtain ⟨t, ht, hnext⟩ := hg.next hs
  unfold Problem.provePremises
  rw [hnext]
  cases hfirst : as.head? with
  | none => exact ⟨_, t, rfl, ht⟩
  | some a =>
    obtain ⟨x, u, hrun, hu⟩ := hgs a hfirst t ht
    dsimp only
    rw [hrun]
    exact ⟨_, u, rfl, hu⟩

/-- A goal that nothing proves is explained by the first rule that applies to it. -/
theorem report_of_passes {goal : Pattern} {s : State}
    (hnext : (pb.prove (pb.params.maxSteps + 1) 0 [] goal .empty).next .start = (.ok none, s))
    (hs : s.Calm) {r : Rule} {rest : List Rule} (hrules : pb.rules.rulesFor goal "why_" = r :: rest)
    {θ : Substitution} (hunify : Unification.unify goal r.conclusion .empty = some θ)
    (hpasses : pb.Passes goal.variantKey r.premises θ) :
    ∃ r t, pb.report goal .start = (.ok r, t) ∧ r.goalProven = false ∧
      r.outcome.boundReached = false ∧ r.outcome.incomplete = false := by
  obtain ⟨⟨failed, ps⟩, t, hrun, ht⟩ := hpasses s hs
  obtain ⟨subgoals, hexplain⟩ : ∃ subgoals, pb.explain goal s = (.ok (subgoals, ps), t) := by
    unfold Problem.explain
    rw [hrules]
    dsimp only
    rw [hunify]
    dsimp only
    rw [hrun]
    cases failed <;> exact ⟨_, rfl⟩
  exact ⟨_, t, report_of_next_none hnext hexplain, rfl, ht.boundReached, ht.incomplete⟩

end Credence.Backward
