import Credence.Proofs.Inference.Forward.Round
import Credence.Proofs.Ranking.Permutation
/-!
# An iteration over two stores

Over two stores that grew from one copy and whose trees have equal confidences, rules
that differ in their order and in that of their premises collect the same statements
with equal confidences. Storing these leaves equal confidences again, or fails on both
sides.
-/

namespace Credence

/-- Two rules that differ in name, description, priority and the order of premises at most. -/
structure Rule.Alike (r r' : Rule) : Prop where
  premises : r'.premises.Perm r.premises
  conclusion : r'.conclusion = r.conclusion
  reliability : r'.reliability = r.reliability
  enabled : r'.enabled = r.enabled

theorem Rule.Alike.symm {r r' : Rule} (h : r.Alike r') : r'.Alike r :=
  ⟨h.premises.symm, h.conclusion.symm, h.reliability.symm, h.enabled.symm⟩

/-- Whether a list has rules like those of another, in any order. -/
def Rule.Rearranged (rules rules' : List Rule) : Prop :=
  ∃ mid, rules.Perm mid ∧ List.Forall₂ Rule.Alike mid rules'

/-- Whether every rule has its like in a list. -/
def Rule.Mirrored (rules rules' : List Rule) : Prop := ∀ r ∈ rules, ∃ r' ∈ rules', Rule.Alike r r'

theorem Rule.Rearranged.mirrored {rules rules' : List Rule} (h : Rearranged rules rules') :
    Mirrored rules rules' ∧ Mirrored rules' rules := by
  obtain ⟨mid, hperm, hall⟩ := h
  constructor
  · intro r hr
    obtain ⟨r', hr', hlike⟩ := exists_of_mem_forall₂ hall.flip (hperm.mem_iff.1 hr)
    exact ⟨r', hr', hlike⟩
  · intro r' hr'
    obtain ⟨r, hr, hlike⟩ := exists_of_mem_forall₂ hall hr'
    exact ⟨r, hperm.mem_iff.2 hr, hlike.symm⟩

/-- The enabled rules of a base have their like among those of the other, whatever the
priorities. -/
theorem Rule.Mirrored.inOrder {base base' : RuleBase} (h : Mirrored base.rules base'.rules) :
    Mirrored base.inOrder base'.inOrder := by
  intro r hr
  obtain ⟨hmem, he⟩ := RuleBase.mem_inOrder.1 hr
  obtain ⟨r', hr', hlike⟩ := h r hmem
  exact ⟨r', RuleBase.mem_inOrder.2 ⟨hr', hlike.enabled.trans he⟩, hlike⟩

theorem Rule.Mirrored.legible {rules rules' : List Rule} (h : Mirrored rules' rules)
    (hlegible : ∀ r ∈ rules, r.conclusion.Legible) : ∀ r ∈ rules', r.conclusion.Legible := by
  intro r' hr'
  obtain ⟨r, hr, hlike⟩ := h r' hr'
  rw [← hlike.conclusion]
  exact hlegible r hr

namespace Forward

open Number Pattern Store

variable {c s s' : Store} {rules rules' : List Rule} {params : Params}

/-! ## Firings over two stores -/

/-- Two stores over one copy whose trees have equal confidences. -/
structure Beside (c s s' : Store) : Prop where
  copy : c.Inv
  left : Overlay c s
  right : Overlay c s'
  agrees : Agrees s s'

theorem Beside.symm (h : Beside c s s') : Beside c s' s :=
  ⟨h.copy, h.right, h.left, h.agrees.symm⟩

/-- Every solution of the premises of a rule has its like for a rule like it: it makes the same
conclusion over atoms of equal confidences. -/
theorem Beside.exists_solution (h : Beside c s s') {r r' : Rule} (hlike : r.Alike r')
    {sols : List Solution} (hsols : s.solutions r.premises .empty = .ok sols) {sol : Solution}
    (hsol : sol ∈ sols) {q : Pattern} (hq : s.instantiate r.conclusion sol.bindings = .ok q) :
    ∃ sols', s'.solutions r'.premises .empty = .ok sols' ∧ ∃ sol' ∈ sols',
      s'.instantiate r'.conclusion sol'.bindings = .ok q ∧
      (∀ x ∈ s.confidences sol.atomIds, ∃ x' ∈ s'.confidences sol'.atomIds, Level x x') ∧
      ∀ x' ∈ s'.confidences sol'.atomIds, ∃ x ∈ s.confidences sol.atomIds, Level x' x := by
  obtain ⟨f, hf⟩ := exists_pairs h.copy h.left h.right h.agrees
  have m := hf.carries h.copy h.left h.right h.agrees
  obtain ⟨sols', hsols'⟩ := solutions_ok h.right.inv r'.premises (holds_empty s')
  obtain ⟨sol', hsol', hsame⟩ :=
    m.exists_like h.left.inv h.right.inv hlike.premises hsols hsols' hsol
  obtain ⟨q', hq'⟩ := exists_instantiate h.right.inv h.right.readable hsols' hsol' r'.conclusion
  have hsolved := solved_of_solutions h.left.inv (holds_empty s) hsols hsol
  rw [← hlike.conclusion] at hq
  obtain rfl := m.instantiate_eq h.left.inv h.right.inv hsame hsolved.holds hq hq'
  exact ⟨sols', hsols', sol', hsol', hq',
    m.confidences h.left.inv h.right.inv hsame.atoms hsolved.stored⟩

theorem map_confidence_filterMap (s : Store) (ids : List AtomId) :
    ((ids.filterMap s.get?).map Atom.truth).map Truth.confidence = s.confidences ids :=
  List.map_map

/-- What a rule fires with over one store, its like fires with over the other. -/
theorem Fires.mirror (h : Beside c s s') (hrules : Rule.Mirrored rules rules') {q : Pattern}
    {t : Truth} (hf : Fires s rules params q t) :
    ∃ t', Fires s' rules' params q t' ∧ Level t.confidence t'.confidence := by
  obtain ⟨hr, hsols, hsol, hq, hground, ht⟩ := hf
  obtain ⟨r', hr', hlike⟩ := hrules _ hr
  obtain ⟨sols', hsols', sol', hsol', hq', hto, hfrom⟩ := h.exists_solution hlike hsols hsol hq
  obtain ⟨t', ht'⟩ := exists_fireTruth hlike.reliability ht
    ((sol'.atomIds.filterMap s'.get?).map Atom.truth)
  rw [← map_confidence_filterMap, ← map_confidence_filterMap] at hto hfrom
  exact ⟨t', ⟨hr', hsols', hsol', hq', hground, ht'⟩,
    level_fireTruth hlike.reliability hto hfrom ht ht'⟩

/-- If all firings over one store have truth values, all over the other have. -/
theorem Tenable.mirror (h : Beside c s s') (hrules : Rule.Mirrored rules' rules)
    (ht : Tenable s rules params) : Tenable s' rules' params := by
  intro r' hr' sols' hsols' sol' hsol' q hq hground
  obtain ⟨r, hr, hlike⟩ := hrules r' hr'
  obtain ⟨sols, hsols, sol, hsol, hq, _⟩ := h.symm.exists_solution hlike hsols' hsol' hq
  obtain ⟨t, htruth⟩ := ht r hr sols hsols sol hsol q hq hground
  exact exists_fireTruth hlike.symm.reliability htruth _

/-- A conclusion is known over both stores or over neither. -/
theorem isKnown_agrees (h : Beside c s s') {q : Pattern} (hq : q.Legible)
    (hground : q.isGround = true) {t t' : Truth} (ht : Level t.confidence t'.confidence) :
    isKnown s' q t' = isKnown s q t := by
  obtain ⟨o, o', ho, ho', hrel⟩ :=
    lookup_agrees h.copy h.left h.right h.agrees hq hground
  rw [isKnown_eq ho, isKnown_eq ho']
  generalize s.confidenceAt o = x at hrel
  generalize s'.confidenceAt o' = x' at hrel
  cases hrel with
  | none => rfl
  | some hl => exact congrArg Except.ok (decide_eq_decide.2 (ht.le_iff_le hl)).symm

theorem Worthy.mirror (h : Beside c s s') (hrules : Rule.Mirrored rules rules')
    (hlegible : ∀ r ∈ rules, r.conclusion.Legible) {q : Pattern} {t : Truth}
    (hw : Worthy s rules params q t) :
    ∃ t', Worthy s' rules' params q t' ∧ Level t.confidence t'.confidence := by
  obtain ⟨t', hf', hl⟩ := hw.fires.mirror h hrules
  refine ⟨t', ⟨hf', ?_, (hl.le_left_iff _).1 hw.accepted⟩, hl⟩
  rw [isKnown_agrees h (hw.fires.legible h.left.inv hlegible) hw.fires.isGround hl]
  exact hw.unknown

/-! ## What two iterations collect -/

/-- The pending statements of a round, with their truth values. -/
def Round.assertions (round : Round) : List (Pattern × Truth) :=
  round.pending.values.map fun e => (e.1, e.2.truth)

theorem Round.Keeps.of_mem {round : Round} (hk : round.Keeps s rules params) {q : Pattern}
    {t : Truth} (h : (q, t) ∈ round.assertions) :
    ∃ k, round.pending.get? q.toText = some (q, k) ∧ k.truth = t := by
  obtain ⟨⟨p, k⟩, hvalue, heq⟩ := List.mem_map.1 h
  cases heq
  obtain ⟨⟨text, _⟩, hentry, rfl⟩ := List.mem_map.1 hvalue
  have hget : round.pending.get? text = some (p, k) := Table.find_of_mem hk.nodup hentry
  obtain ⟨rfl, _⟩ := hk.pending _ _ _ hget
  exact ⟨k, hget, rfl⟩

theorem Round.Keeps.truth_unique {round : Round} (hk : round.Keeps s rules params) {q : Pattern}
    {t u : Truth} (ht : (q, t) ∈ round.assertions) (hu : (q, u) ∈ round.assertions) : t = u := by
  obtain ⟨k, hk₁, rfl⟩ := hk.of_mem ht
  obtain ⟨l, hl, rfl⟩ := hk.of_mem hu
  cases hk₁.symm.trans hl
  rfl

theorem Round.Keeps.worthy {round : Round} (hk : round.Keeps s rules params) {q : Pattern}
    {t : Truth} (h : (q, t) ∈ round.assertions) : Worthy s rules params q t := by
  obtain ⟨k, hget, rfl⟩ := hk.of_mem h
  exact (hk.pending _ _ _ hget).2.2

theorem Round.mem_assertions {round : Round} {q : Pattern} {k : Conclusion}
    (h : round.pending.get? q.toText = some (q, k)) : (q, k.truth) ∈ round.assertions :=
  List.mem_map.2 ⟨(q, k), List.mem_map.2 ⟨_, Table.mem_of_find h, rfl⟩, rfl⟩

/-- What a round has to be after an iteration. -/
structure Round.Complete (facts : Store) (rules : List Rule) (params : Params) (round : Round) :
    Prop where
  keeps : round.Keeps facts rules params
  covers : ∀ q t, Worthy facts rules params q t → round.Covers q t

/-- Two iterations collect the same statements with equal confidences. -/
theorem Round.Complete.matched (h : Beside c s s') (hrules : Rule.Mirrored rules rules')
    (hrules' : Rule.Mirrored rules' rules) (hlegible : ∀ r ∈ rules, r.conclusion.Legible)
    (hlegible' : ∀ r ∈ rules', r.conclusion.Legible) {round round' : Round}
    (hc : round.Complete s rules params) (hc' : round'.Complete s' rules' params) :
    Matched round.assertions round'.assertions := by
  -- One half of what is asked, to be used in both directions.
  have half : ∀ {s s' : Store} {rules rules' : List Rule} {round round' : Round}, Beside c s s' →
      Rule.Mirrored rules rules' → (∀ r ∈ rules, r.conclusion.Legible) →
      round.Complete s rules params → round'.Complete s' rules' params →
      ∀ q t, (q, t) ∈ round.assertions →
        ∃ t', (q, t') ∈ round'.assertions ∧ t.confidence ≤ t'.confidence := by
    intro s s' rules rules' round round' h hrules hlegible hc hc' q t hmem
    obtain ⟨t', hw', hl⟩ := (hc.keeps.worthy hmem).mirror h hrules hlegible
    obtain ⟨k', hget', hle⟩ := hc'.covers q t' hw'
    have hmem' := Round.mem_assertions hget'
    have hvalid := (hc'.keeps.worthy hmem').fires.isValid h.right.inv
    exact ⟨_, hmem', le_of_le_of_inUnit hl.right hvalid.confidence hl.le hle⟩
  refine ⟨fun q => ⟨?_, ?_⟩, fun q t t' hmem hmem' => ?_⟩
  · rintro ⟨t, hmem⟩
    obtain ⟨t', hmem', _⟩ := half h hrules hlegible hc hc' q t hmem
    exact ⟨t', hmem'⟩
  · rintro ⟨t, hmem⟩
    obtain ⟨t', hmem', _⟩ := half h.symm hrules' hlegible' hc' hc q t hmem
    exact ⟨t', hmem'⟩
  · obtain ⟨u', hu', hle⟩ := half h hrules hlegible hc hc' q t hmem
    obtain ⟨u, hu, hge⟩ := half h.symm hrules' hlegible' hc' hc q t' hmem'
    rw [hc'.keeps.truth_unique hu' hmem'] at hle
    rw [hc.keeps.truth_unique hu hmem] at hge
    exact ⟨((hc.keeps.worthy hmem).fires.isValid h.left.inv).confidence,
      ((hc'.keeps.worthy hmem').fires.isValid h.right.inv).confidence, hle, hge⟩

/-! ## Storing what was collected -/

/-- Whether a pending statement is of the kind that rounds collect. -/
structure Storable (e : Pattern × Conclusion) : Prop where
  ground : e.1.isGround = true
  legible : e.1.Legible
  valid : e.2.truth.IsValid
  statement : e.2.statement = e.1.toText

/-- Where all statements fit, all are stored if there is room for them. -/
theorem accept_of_fits {es : List (Pattern × Conclusion)} (hs : Overlay c s)
    (hes : ∀ e ∈ es, Storable e) (hfits : ∀ e ∈ es, e.1.fits = true) (ks : List Conclusion) :
    ∃ u, (∀ n, ks.length + es.length ≤ n →
        accept n es s ks = .ok (u, ks ++ es.map Prod.snd, false)) ∧ Overlay c u ∧
      ∀ q, Rated s (es.map fun e => (e.1, e.2.truth)) q (u.rating q) := by
  induction es generalizing s ks with
  | nil =>
    refine ⟨s, fun n _ => by rw [List.map_nil, List.append_nil]; rfl, hs, fun q => ?_⟩
    exact .other (List.forall_mem_nil _) (List.forall_mem_nil _)
  | cons e es ih =>
    obtain ⟨p, k⟩ := e
    obtain ⟨he, hes⟩ := List.forall_mem_cons.1 hes
    obtain ⟨hfit, hfits⟩ := List.forall_mem_cons.1 hfits
    have hassert := run_assert hs.inv he.ground (some k.truth)
    rw [if_pos hfit] at hassert
    obtain ⟨id, w, hrun⟩ := hassert
    have hw := hs.assert he.legible he.valid hrun
    obtain ⟨u, haccept, hu, hrated⟩ := ih hw hes hfits (ks ++ [k])
    refine ⟨u, fun n hn => ?_, hu, fun q => (rated_of_assert hs.inv he.valid hrun q).cons (hrated q)⟩
    rw [List.length_cons] at hn
    unfold accept
    rw [if_neg (by omega)]
    simp only [hrun]
    rw [haccept n (by rw [List.length_append, List.length_singleton]; omega), List.append_assoc]
    rfl

/-- Where some statement does not fit and there is room for all, none are reported. -/
theorem accept_of_not_fits {n : Nat} {es : List (Pattern × Conclusion)} {ks : List Conclusion}
    (hn : ks.length + es.length ≤ n) (hs : Overlay c s) (hes : ∀ e ∈ es, Storable e)
    (hfits : ∃ e ∈ es, e.1.fits = false) : ∃ err, accept n es s ks = .error err := by
  induction es generalizing s ks with
  | nil =>
    obtain ⟨e, he, _⟩ := hfits
    cases he
  | cons e es ih =>
    obtain ⟨p, k⟩ := e
    rw [List.length_cons] at hn
    obtain ⟨he, hes⟩ := List.forall_mem_cons.1 hes
    have hassert := run_assert hs.inv he.ground (some k.truth)
    unfold accept
    rw [if_neg (by omega)]
    cases hfit : p.fits with
    | false =>
      rw [if_neg (by rw [hfit]; exact Bool.false_ne_true)] at hassert
      obtain ⟨err, hrun⟩ := hassert
      simp only [hrun]
      exact ⟨err, rfl⟩
    | true =>
      rw [if_pos hfit] at hassert
      obtain ⟨id, w, hrun⟩ := hassert
      simp only [hrun]
      have hrest : ∃ e ∈ es, e.1.fits = false := by
        obtain ⟨d, hd, hdf⟩ := hfits
        rcases List.mem_cons.1 hd with rfl | hd
        · rw [hfit] at hdf
          cases hdf
        · exact ⟨d, hd, hdf⟩
      exact ih (by rw [List.length_append, List.length_singleton]; omega)
        (hs.assert he.legible he.valid hrun) hes hrest

theorem Round.Keeps.storable {round : Round} (hk : round.Keeps s rules params) (h : s.Inv)
    (hlegible : ∀ r ∈ rules, r.conclusion.Legible) : ∀ e ∈ round.pending.values, Storable e := by
  rintro ⟨p, k⟩ he
  obtain ⟨d, hd, heq⟩ := List.mem_map.1 he
  have hget : round.pending.get? d.1 = some d.2 := Table.find_of_mem hk.nodup hd
  rw [heq] at hget
  obtain ⟨_, htext, hw⟩ := hk.pending _ _ _ hget
  exact ⟨hw.fires.isGround, hw.fires.legible h hlegible, hw.fires.isValid h, htext⟩

theorem isEmpty_of_matched {round round' : Round}
    (h : Matched round.assertions round'.assertions) :
    round'.pending.entries.isEmpty = round.pending.entries.isEmpty := by
  have hiff : ∀ round : Round, round.pending.entries.isEmpty = true ↔
      ∀ q t, (q, t) ∉ round.assertions := by
    intro round
    unfold Round.assertions Table.values
    cases round.pending.entries with
    | nil => simp
    | cons e es =>
      refine ⟨nofun, fun hnone => absurd (List.mem_cons_self ..) (hnone e.2.1 e.2.2.truth)⟩
  rw [Bool.eq_iff_iff, hiff, hiff]
  constructor
  · intro hnone q t hmem
    obtain ⟨t', hmem'⟩ := (h.roots q).1 ⟨t, hmem⟩
    exact hnone q t' hmem'
  · intro hnone q t hmem
    obtain ⟨t', hmem'⟩ := (h.roots q).2 ⟨t, hmem⟩
    exact hnone q t' hmem'

theorem fits_of_matched {round round' : Round} (h : Matched round.assertions round'.assertions)
    (hfits : ∀ e ∈ round.pending.values, e.1.fits = true) :
    ∀ e ∈ round'.pending.values, e.1.fits = true := by
  intro e he
  obtain ⟨t, hmem⟩ := (h.roots e.1).2 ⟨_, List.mem_map_of_mem he⟩
  obtain ⟨d, hd, heq⟩ := List.mem_map.1 hmem
  rw [← (Prod.mk.inj heq).1]
  exact hfits d hd

/-- What two iterations collected is stored on both sides or fails on both. -/
theorem accept_mirror (h : Beside c s s') {round round' : Round}
    (hm : Matched round.assertions round'.assertions)
    (hes : ∀ e ∈ round.pending.values, Storable e) (hes' : ∀ e ∈ round'.pending.values, Storable e)
    (ks ks' : List Conclusion) : ∃ N,
    (∃ u u', Beside c u u' ∧ ∀ n, N ≤ n →
      accept n round.pending.values s ks = .ok (u, ks ++ round.pending.values.map Prod.snd, false) ∧
      accept n round'.pending.values s' ks' =
        .ok (u', ks' ++ round'.pending.values.map Prod.snd, false)) ∨
    ∀ n, N ≤ n → (∃ e, accept n round.pending.values s ks = .error e) ∧
      ∃ e, accept n round'.pending.values s' ks' = .error e := by
  refine ⟨max (ks.length + round.pending.values.length) (ks'.length + round'.pending.values.length),
    ?_⟩
  by_cases hfits : ∀ e ∈ round.pending.values, e.1.fits = true
  · obtain ⟨u, haccept, hu, hrated⟩ := accept_of_fits h.left hes hfits ks
    obtain ⟨u', haccept', hu', hrated'⟩ :=
      accept_of_fits h.right hes' (fits_of_matched hm hfits) ks'
    exact .inl ⟨u, u', ⟨h.copy, hu, hu', h.agrees.rated hm hrated hrated'⟩,
      fun n hn => ⟨haccept n (Nat.le_trans (Nat.le_max_left ..) hn),
        haccept' n (Nat.le_trans (Nat.le_max_right ..) hn)⟩⟩
  · have hnot : ∀ {round : Round}, ¬ (∀ e ∈ round.pending.values, e.1.fits = true) →
        ∃ e ∈ round.pending.values, e.1.fits = false := by
      intro round hnot
      simpa only [not_forall, Bool.not_eq_true, exists_prop] using hnot
    exact .inr fun n hn =>
      ⟨accept_of_not_fits (Nat.le_trans (Nat.le_max_left ..) hn) h.left hes (hnot hfits),
        accept_of_not_fits (Nat.le_trans (Nat.le_max_right ..) hn) h.right hes'
          (hnot fun hfits' => hfits (fits_of_matched hm.symm hfits'))⟩

end Forward

end Credence
