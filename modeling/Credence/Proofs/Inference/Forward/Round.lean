import Credence.Proofs.Inference.Forward.Founded
import Credence.Proofs.Pattern.Key
import Credence.Proofs.Store.Counterpart
/-!
# What an iteration collects

While an iteration lasts the facts stay as they are, so what the rules fire with can
be told in advance: every solution of the premises of a rule makes a firing. Of each
statement that is accepted and not known yet, the iteration ends with the greatest
confidence that any firing gives it. Which firings come first does not matter: one that
is passed over for a rejected one would have been rejected itself.
-/

namespace Credence.Forward

open Number Pattern

/-! ## The truth of a firing -/

/-- Whether there is a truth value depends on the reliability of the rule alone. -/
theorem exists_fireTruth {r r' : Rule} (hr : r'.reliability = r.reliability) {ts : List Truth}
    {useUncertainty : Bool} {t : Truth} (h : fireTruth r ts useUncertainty = .ok t)
    (ts' : List Truth) : ∃ t', fireTruth r' ts' useUncertainty = .ok t' := by
  unfold fireTruth at h ⊢
  rw [hr]
  cases useUncertainty with
  | true =>
    rw [if_pos rfl] at h ⊢
    obtain ⟨x, hx, _⟩ := map_eq_ok h
    rw [hx]
    exact ⟨_, rfl⟩
  | false =>
    rw [if_neg Bool.false_ne_true] at h ⊢
    obtain ⟨x, hx, _⟩ := map_eq_ok h
    rw [hx]
    exact ⟨_, rfl⟩

/-- Over equal confidences a rule fires with equal confidences. -/
theorem level_fireTruth {r r' : Rule} (hr : r'.reliability = r.reliability) {ts ts' : List Truth}
    (hts : ∀ c ∈ ts.map Truth.confidence, ∃ c' ∈ ts'.map Truth.confidence, Level c c')
    (hts' : ∀ c' ∈ ts'.map Truth.confidence, ∃ c ∈ ts.map Truth.confidence, Level c' c)
    {useUncertainty : Bool} {t t' : Truth} (h : fireTruth r ts useUncertainty = .ok t)
    (h' : fireTruth r' ts' useUncertainty = .ok t') : Level t.confidence t'.confidence := by
  obtain ⟨hunit, _, hc⟩ := fireTruth_ok h
  obtain ⟨_, _, hc'⟩ := fireTruth_ok h'
  have hone : Level 1.0 1.0 := .refl inUnit_one
  have hleast : Level (Truth.conjoin ts).confidence (Truth.conjoin ts').confidence := by
    unfold Truth.conjoin
    rw [Truth.confidence_foldl, Truth.confidence_foldl]
    -- The conjunction starts from one, so the least is that of one and the confidences.
    refine Level.least (List.cons_ne_nil 1.0 (ts.map Truth.confidence)) (List.cons_ne_nil _ _) ?_ ?_
    · refine List.forall_mem_cons.2 ⟨⟨1.0, List.mem_cons_self .., hone⟩, fun c hmem => ?_⟩
      obtain ⟨c', hmem', hl⟩ := hts c hmem
      exact ⟨c', List.mem_cons_of_mem _ hmem', hl⟩
    · refine List.forall_mem_cons.2 ⟨⟨1.0, List.mem_cons_self .., hone⟩, fun c' hmem' => ?_⟩
      obtain ⟨c, hmem, hl⟩ := hts' c' hmem'
      exact ⟨c, List.mem_cons_of_mem _ hmem, hl⟩
  rw [hc, hc', hr]
  split
  · exact hleast.mul hunit
  · exact .refl hunit

/-! ## Firings -/

/-- Whether some rule fires over the facts with a ground conclusion and a truth value. -/
inductive Fires (facts : Store) (rules : List Rule) (params : Params) (q : Pattern) (t : Truth) :
    Prop
  | mk {r : Rule} (hr : r ∈ rules) {sols : List Solution}
    (hsols : facts.solutions r.premises .empty = .ok sols) {sol : Solution} (hsol : sol ∈ sols)
    (hq : facts.instantiate r.conclusion sol.bindings = .ok q) (hground : q.isGround = true)
    (ht : fireTruth r ((sol.atomIds.filterMap facts.get?).map Atom.truth) params.useUncertainty =
      .ok t)

/-- Whether every firing with a ground conclusion has a truth value. -/
def Tenable (facts : Store) (rules : List Rule) (params : Params) : Prop :=
  ∀ r ∈ rules, ∀ sols, facts.solutions r.premises .empty = .ok sols → ∀ sol ∈ sols,
    ∀ q, facts.instantiate r.conclusion sol.bindings = .ok q → q.isGround = true →
      ∃ t, fireTruth r ((sol.atomIds.filterMap facts.get?).map Atom.truth) params.useUncertainty =
        .ok t

/-- Whether a firing is worth storing: it is accepted, and nothing like it is known. -/
structure Worthy (facts : Store) (rules : List Rule) (params : Params) (q : Pattern) (t : Truth) :
    Prop where
  fires : Fires facts rules params q t
  unknown : isKnown facts q t = .ok false
  accepted : t.confidence ≥ params.threshold

variable {facts : Store} {rules : List Rule} {params : Params} {q : Pattern} {t : Truth}

theorem Fires.isGround (h : Fires facts rules params q t) : q.isGround = true := by
  obtain ⟨_, _, _, _, hg, _⟩ := h
  exact hg

theorem isValid_of_consumed (h : facts.Inv) (ids : List AtomId) :
    ∀ t ∈ (ids.filterMap facts.get?).map Atom.truth, t.IsValid := by
  intro t ht
  obtain ⟨a, ha, rfl⟩ := List.mem_map.1 ht
  obtain ⟨id, _, hget⟩ := List.mem_filterMap.1 ha
  exact h.formed.valid a ((Store.get?_some_iff h.formed.ascending).1 hget).1

theorem Fires.isValid (h : Fires facts rules params q t) (hinv : facts.Inv) : t.IsValid := by
  obtain ⟨_, _, _, _, _, ht⟩ := h
  exact isValid_of_fireTruth (isValid_of_consumed hinv _) ht

theorem Fires.legible (h : Fires facts rules params q t) (hinv : facts.Inv)
    (hrules : ∀ r ∈ rules, r.conclusion.Legible) : q.Legible := by
  obtain ⟨hr, _, _, hq, _, _⟩ := h
  exact Store.legible_of_instantiate hinv (hrules _ hr) hq

/-! ## What is known -/

theorem isKnown_eq {o : Option AtomId} (ho : facts.lookup q = .ok o) (t : Truth) :
    isKnown facts q t = .ok (match facts.confidenceAt o with
      | some x => decide (x ≥ t.confidence)
      | none => false) := by
  unfold isKnown Store.confidenceAt
  rw [ho]
  show Except.ok _ = _
  cases o.bind facts.get? <;> rfl

theorem exists_isKnown (h : facts.Inv) (q : Pattern) (t : Truth) :
    ∃ known, isKnown facts q t = .ok known := by
  obtain ⟨o, ho, _⟩ := Store.found_of_lookup h q
  exact ⟨_, isKnown_eq ho t⟩

/-! ## Rounds -/

/-- What a round keeps: each statement that is pending is worth storing, and what was rejected is
below the threshold. -/
structure Round.Keeps (facts : Store) (rules : List Rule) (params : Params) (round : Round) :
    Prop where
  nodup : round.pending.keys.Nodup
  pending : ∀ k p c, round.pending.get? k = some (p, c) → k = p.toText ∧ c.statement = p.toText ∧
    Worthy facts rules params p c.truth
  rejected : ∀ k x, round.rejected.get? k = some x → inUnit x = true ∧ ¬ x ≥ params.threshold

/-- Whether a statement is pending with at least this confidence. -/
def Round.Covers (round : Round) (q : Pattern) (t : Truth) : Prop :=
  ∃ c, round.pending.get? q.toText = some (q, c) ∧ t.confidence ≤ c.truth.confidence

theorem Round.Keeps.of_text {round : Round} (h : round.Keeps facts rules params)
    (hq : q.isGround = true) {p : Pattern} {c : Conclusion}
    (hget : round.pending.get? q.toText = some (p, c)) : p = q := by
  obtain ⟨htext, _, hworthy⟩ := h.pending _ p c hget
  exact (toText_inj hq hworthy.fires.isGround htext).symm

/-- Records a firing unless it is known or the round has it with at least that confidence. -/
def Round.offer (round : Round) (params : Params) (iteration : Nat) (r : Rule)
    (texts : List String) (known : Bool) (q : Pattern) (t : Truth) : Round :=
  if known || round.isPending q.toText t || round.isRejected q.toText t then round
  else round.record params iteration r texts q t

variable {round round' : Round} {iteration : Nat} {r : Rule} {texts : List String} {known : Bool}

theorem Round.Keeps.offer (h : round.Keeps facts rules params) (hinv : facts.Inv)
    (hf : Fires facts rules params q t) (hknown : isKnown facts q t = .ok known) :
    (round.offer params iteration r texts known q t).Keeps facts rules params := by
  unfold Round.offer
  split
  · exact h
  · next hnot =>
    have hunknown : known = false := by
      cases known with
      | false => rfl
      | true => exact absurd rfl hnot
    subst hunknown
    unfold Round.record
    dsimp only
    split
    · next hacc =>
      refine ⟨Table.nodup_keys_insert h.nodup _ _, fun k p c hget => ?_, h.rejected⟩
      rw [Table.get?_insert] at hget
      split at hget
      · next hk =>
        cases hget
        exact ⟨hk.symm, rfl, hf, hknown, hacc⟩
      · exact h.pending k p c hget
    · next hlow =>
      refine ⟨h.nodup, h.pending, fun k x hget => ?_⟩
      rw [Table.get?_insert] at hget
      split at hget
      · cases hget
        exact ⟨(hf.isValid hinv).confidence, hlow⟩
      · exact h.rejected k x hget

/-- What a round covers stays covered. -/
theorem Round.Covers.offer (h : round.Keeps facts rules params) (hinv : facts.Inv)
    (hf : Fires facts rules params q t) {p : Pattern} {u : Truth} (hc : round.Covers p u)
    (hp : p.isGround = true) : (round.offer params iteration r texts known q t).Covers p u := by
  unfold Round.offer
  split
  · exact hc
  · next hnot =>
    unfold Round.record
    dsimp only
    split
    · obtain ⟨c, hget, hle⟩ := hc
      unfold Round.Covers
      dsimp only
      rw [Table.get?_insert]
      split
      · next htext =>
        -- The statement was pending with less confidence, or it would have been passed over.
        obtain rfl := toText_inj hf.isGround hp htext
        have hpending : round.isPending q.toText t = false := by
          cases hpending : round.isPending q.toText t with
          | false => rfl
          | true => simp [hpending] at hnot
        unfold Round.isPending at hpending
        rw [hget] at hpending
        have hvalid := (h.pending _ _ _ hget).2.2.fires.isValid hinv
        have hless : c.truth.confidence ≤ t.confidence :=
          (le_total_of_inUnit hvalid.confidence (hf.isValid hinv).confidence).resolve_right
            (of_decide_eq_false hpending)
        exact ⟨_, rfl, le_of_le_of_inUnit hvalid.confidence (hf.isValid hinv).confidence hle hless⟩
      · exact ⟨c, hget, hle⟩
    · exact hc

/-- A firing that is worth storing is covered, recorded or not. -/
theorem Round.covers_offer (h : round.Keeps facts rules params) (hinv : facts.Inv)
    (hw : Worthy facts rules params q t) :
    (round.offer params iteration r texts false q t).Covers q t := by
  have hunit := (hw.fires.isValid hinv).confidence
  have hrejected : round.isRejected q.toText t = false := by
    refine decide_eq_false fun hle => ?_
    cases hget : round.rejected.get? q.toText with
    | none =>
      rw [hget] at hle
      exact not_le_minus_one hunit hle
    | some x =>
      -- What was rejected is below the threshold, and this firing is not.
      rw [hget] at hle
      obtain ⟨hx, hlow⟩ := h.rejected _ x hget
      exact hlow (le_of_le_of_inUnit hunit hx hw.accepted hle)
  unfold Round.offer
  rw [hrejected, Bool.or_false, Bool.false_or]
  split
  · next hpending =>
    unfold Round.isPending at hpending
    split at hpending
    · next p c hget =>
      obtain rfl := h.of_text hw.fires.isGround hget
      exact ⟨c, hget, of_decide_eq_true hpending⟩
    · cases hpending
  · unfold Round.record
    dsimp only
    rw [if_pos hw.accepted]
    exact ⟨⟨q.toText, t, r.name, texts, round.steps.length + 1⟩,
      by rw [Table.get?_insert, if_pos rfl], le_refl_of_inUnit hunit⟩

/-! ## Firing -/

section

variable {sols : List Solution} {sol : Solution}

theorem exists_toTexts {facts : Store} (h : facts.Inv) (hread : facts.Readable)
    {ids : List AtomId} (hids : ∀ id ∈ ids, id ∈ facts.ids) : ∃ texts, facts.toTexts ids = .ok texts := by
  refine exists_mapM_ok fun id hid => ?_
  obtain ⟨p, hp⟩ := Store.exists_toPattern h hread (hids id hid)
  unfold Store.toText
  rw [hp]
  exact ⟨_, rfl⟩

/-- A conclusion that keeps variables is passed over. -/
theorem fire_of_open (hq : facts.instantiate r.conclusion sol.bindings = .ok q)
    (hground : q.isGround = false) : fire facts params iteration r round sol = .ok round := by
  unfold fire
  rw [hq]
  show (if !q.isGround then _ else _ : Except Error Round) = _
  rw [hground]
  rfl

theorem fire_of_ground (hq : facts.instantiate r.conclusion sol.bindings = .ok q)
    (hground : q.isGround = true) : fire facts params iteration r round sol = (do
      let t ← fireTruth r ((sol.atomIds.filterMap facts.get?).map Atom.truth) params.useUncertainty
      let known ← isKnown facts q t
      if known || round.isPending q.toText t || round.isRejected q.toText t then return round
      let texts ← facts.toTexts sol.atomIds
      return round.record params iteration r texts q t) := by
  unfold fire
  rw [hq]
  show (if !q.isGround then _ else _ : Except Error Round) = _
  rw [hground]
  rfl

/-- A ground conclusion is offered to the round. -/
theorem fire_eq_offer (h : facts.Inv) (hread : facts.Readable)
    (hsols : facts.solutions r.premises .empty = .ok sols) (hsol : sol ∈ sols)
    (hq : facts.instantiate r.conclusion sol.bindings = .ok q) (hground : q.isGround = true)
    (ht : fireTruth r ((sol.atomIds.filterMap facts.get?).map Atom.truth) params.useUncertainty =
      .ok t) (hknown : isKnown facts q t = .ok known) :
    ∃ texts, fire facts params iteration r round sol =
      .ok (round.offer params iteration r texts known q t) := by
  have hstored := (Store.solved_of_solutions h (Store.holds_empty _) hsols hsol).stored
  obtain ⟨texts, htexts⟩ := exists_toTexts h hread hstored
  refine ⟨texts, ?_⟩
  rw [fire_of_ground hq hground, ht]
  show (isKnown facts q t >>= _) = _
  rw [hknown]
  show (if _ then _ else _ : Except Error Round) = _
  unfold Round.offer
  split
  · rfl
  · rw [htexts]
    rfl

theorem exists_truth_of_fire (hq : facts.instantiate r.conclusion sol.bindings = .ok q)
    (hground : q.isGround = true) (hfire : fire facts params iteration r round sol = .ok round') :
    ∃ t, fireTruth r ((sol.atomIds.filterMap facts.get?).map Atom.truth) params.useUncertainty =
      .ok t := by
  rw [fire_of_ground hq hground] at hfire
  obtain ⟨t, ht, _⟩ := bind_eq_ok hfire
  exact ⟨t, ht⟩

/-- A firing changes nothing or offers what it concludes. -/
theorem fire_cases (h : facts.Inv) (hread : facts.Readable) (hr : r ∈ rules)
    (hsols : facts.solutions r.premises .empty = .ok sols) (hsol : sol ∈ sols)
    (hfire : fire facts params iteration r round sol = .ok round') :
    round' = round ∨ ∃ q t known texts, Fires facts rules params q t ∧
      isKnown facts q t = .ok known ∧ round' = round.offer params iteration r texts known q t := by
  obtain ⟨q, hq⟩ := Store.exists_instantiate h hread hsols hsol r.conclusion
  cases hground : q.isGround with
  | false =>
    rw [fire_of_open hq hground] at hfire
    exact .inl (Except.ok.inj hfire).symm
  | true =>
    obtain ⟨t, ht⟩ := exists_truth_of_fire hq hground hfire
    obtain ⟨known, hknown⟩ := exists_isKnown h q t
    obtain ⟨texts, hoffer⟩ := fire_eq_offer h hread hsols hsol hq hground ht hknown
    rw [hoffer] at hfire
    exact .inr ⟨q, t, known, texts, ⟨hr, hsols, hsol, hq, hground, ht⟩, hknown,
      (Except.ok.inj hfire).symm⟩

theorem Round.Keeps.fire (h : facts.Inv) (hread : facts.Readable) (hr : r ∈ rules)
    (hsols : facts.solutions r.premises .empty = .ok sols) (hsol : sol ∈ sols)
    (hk : round.Keeps facts rules params)
    (hfire : Forward.fire facts params iteration r round sol = .ok round') :
    round'.Keeps facts rules params := by
  rcases fire_cases h hread hr hsols hsol hfire with rfl | ⟨q, t, known, texts, hf, hknown, rfl⟩
  · exact hk
  · exact hk.offer h hf hknown

theorem Round.Covers.fire (h : facts.Inv) (hread : facts.Readable) (hr : r ∈ rules)
    (hsols : facts.solutions r.premises .empty = .ok sols) (hsol : sol ∈ sols)
    (hk : round.Keeps facts rules params) {p : Pattern} {u : Truth} (hp : p.isGround = true)
    (hc : round.Covers p u)
    (hfire : Forward.fire facts params iteration r round sol = .ok round') :
    round'.Covers p u := by
  rcases fire_cases h hread hr hsols hsol hfire with rfl | ⟨q, t, known, texts, hf, _, rfl⟩
  · exact hc
  · exact hc.offer hk h hf hp

end

/-! ## All firings -/

/-- Firing a rule at every solution of its premises. -/
def fireRule (facts : Store) (params : Params) (iteration : Nat) (round : Round) (r : Rule) :
    Except Error Round := do
  let sols ← facts.solutions r.premises .empty
  sols.foldlM (fire facts params iteration r) round

theorem fireAll_eq (facts : Store) (rules : List Rule) (params : Params) (iteration : Nat)
    (round : Round) :
    fireAll facts rules params iteration round =
      rules.foldlM (fireRule facts params iteration) round := rfl

theorem fireRule_ok (hrun : fireRule facts params iteration round r = .ok round') :
    ∃ sols, facts.solutions r.premises .empty = .ok sols ∧
      sols.foldlM (fire facts params iteration r) round = .ok round' := bind_eq_ok hrun

theorem Round.Keeps.fireRule (h : facts.Inv) (hread : facts.Readable) (hr : r ∈ rules)
    (hk : round.Keeps facts rules params)
    (hrun : Forward.fireRule facts params iteration round r = .ok round') :
    round'.Keeps facts rules params := by
  obtain ⟨sols, hsols, hrun⟩ := fireRule_ok hrun
  exact foldlM_induct hk (fun sol hsol _ _ hk hfire => hk.fire h hread hr hsols hsol hfire) hrun

theorem Round.Covers.fireRule (h : facts.Inv) (hread : facts.Readable) (hr : r ∈ rules)
    (hk : round.Keeps facts rules params) {p : Pattern} {u : Truth} (hp : p.isGround = true)
    (hc : round.Covers p u)
    (hrun : Forward.fireRule facts params iteration round r = .ok round') :
    round'.Covers p u := by
  obtain ⟨sols, hsols, hrun⟩ := fireRule_ok hrun
  refine (foldlM_induct (P := fun round => round.Keeps facts rules params ∧ round.Covers p u)
    ⟨hk, hc⟩ ?_ hrun).2
  rintro sol hsol c c' ⟨hk, hc⟩ hfire
  exact ⟨hk.fire h hread hr hsols hsol hfire, hc.fire h hread hr hsols hsol hk hp hfire⟩

/-- A rule covers what it fires with if that is worth storing. -/
theorem covers_fireRule (h : facts.Inv) (hread : facts.Readable) (hr : r ∈ rules)
    {sols : List Solution} (hsols : facts.solutions r.premises .empty = .ok sols) {sol : Solution}
    (hsol : sol ∈ sols) (hq : facts.instantiate r.conclusion sol.bindings = .ok q)
    (ht : fireTruth r ((sol.atomIds.filterMap facts.get?).map Atom.truth) params.useUncertainty =
      .ok t) (hw : Worthy facts rules params q t) (hk : round.Keeps facts rules params)
    (hrun : fireRule facts params iteration round r = .ok round') : round'.Covers q t := by
  obtain ⟨sols', hsols', hrun⟩ := fireRule_ok hrun
  obtain rfl := Except.ok.inj (hsols.symm.trans hsols')
  refine foldlM_reaches (P := fun round => round.Keeps facts rules params)
    (Q := fun round => round.Covers q t) hsol hk
    (fun sol hsol _ _ hk hfire => hk.fire h hread hr hsols hsol hfire) (fun c c' hk hfire => ?_)
    (fun sol hsol _ _ hk hc hfire => hc.fire h hread hr hsols hsol hk hw.fires.isGround hfire) hrun
  obtain ⟨texts, hoffer⟩ := fire_eq_offer h hread hsols hsol hq hw.fires.isGround ht hw.unknown
  rw [hoffer] at hfire
  rw [← Except.ok.inj hfire]
  exact Round.covers_offer hk h hw

/-- An iteration collects, of every statement that is worth storing, the greatest confidence. -/
theorem fireAll_spec (h : facts.Inv) (hread : facts.Readable) (hk : round.Keeps facts rules params)
    (hrun : fireAll facts rules params iteration round = .ok round') :
    round'.Keeps facts rules params ∧ ∀ q t, Worthy facts rules params q t → round'.Covers q t := by
  rw [fireAll_eq] at hrun
  refine ⟨foldlM_induct hk (fun r hr _ _ hk => hk.fireRule h hread hr) hrun, fun q t hw => ?_⟩
  obtain ⟨hr, hsols, hsol, hq, hg, ht⟩ := hw.fires
  exact foldlM_reaches (P := fun round => round.Keeps facts rules params)
    (Q := fun round => round.Covers q t) hr hk (fun r hr _ _ hk => hk.fireRule h hread hr)
    (fun c c' hk => covers_fireRule h hread hr hsols hsol hq ht hw hk)
    (fun r hr _ _ hk hc => hc.fireRule h hread hr hk hg) hrun

/-- An iteration succeeds exactly if every firing with a ground conclusion has a truth value. -/
theorem fireAll_ok_iff (h : facts.Inv) (hread : facts.Readable) (iteration : Nat)
    (round : Round) :
    (∃ round', fireAll facts rules params iteration round = .ok round') ↔
      Tenable facts rules params := by
  rw [fireAll_eq]
  constructor
  · rintro ⟨round', hrun⟩ r hr sols hsols sol hsol q hq hground
    obtain ⟨c, c', hrule⟩ := exists_step_of_foldlM hrun hr
    obtain ⟨sols', hsols', hrule⟩ := fireRule_ok hrule
    obtain rfl := Except.ok.inj (hsols.symm.trans hsols')
    obtain ⟨d, d', hfire⟩ := exists_step_of_foldlM hrule hsol
    exact exists_truth_of_fire hq hground hfire
  · intro htenable
    refine exists_foldlM_ok (fun r hr c => ?_) round
    obtain ⟨sols, hsols⟩ := Store.solutions_ok h r.premises (Store.holds_empty _)
    unfold fireRule
    rw [hsols]
    refine exists_foldlM_ok (fun sol hsol d => ?_) c
    obtain ⟨q, hq⟩ := Store.exists_instantiate h hread hsols hsol r.conclusion
    cases hground : q.isGround with
    | false => exact ⟨d, fire_of_open hq hground⟩
    | true =>
      obtain ⟨t, ht⟩ := htenable r hr sols hsols sol hsol q hq hground
      obtain ⟨known, hknown⟩ := exists_isKnown h q t
      obtain ⟨texts, hoffer⟩ := fire_eq_offer h hread hsols hsol hq hground ht hknown
      exact ⟨_, hoffer⟩

end Credence.Forward
