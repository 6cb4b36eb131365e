import Credence.Proofs.Inference.Forward.Order
import Credence.Proofs.Pattern.RoundTrip
import Credence.Proofs.Store.Twin
/-!
# Finished runs

A run that ends by itself has nothing left to store: every firing over its facts is
known or below the threshold. Its facts are a private copy, and asserting its
conclusions one by one, each read back from its text, makes the same atoms in the store
that the copy was made of. So a second run over that store finds nothing in its first
iteration.
-/

namespace Credence.Forward

open Number Pattern Store

/-- Asserts conclusions one after the other, each by its text and its truth value. -/
def adopt : List Conclusion → StoreM Unit
  | [] => return ()
  | k :: ks => do
    let _ ← assertFrom (.text k.statement) k.truth.toValue
    adopt ks

/-- The same parameters without a limit on time. -/
def untimed (params : Params) : Params := { params with timeout := none }

variable {s facts facts' : Store} {rules : List Rule} {params : Params}
  {ks ks' : List Conclusion}

/-! ## Statements that read back -/

theorem fits_of_assert (h : s.Inv) {p : Pattern} {t : Truth} {id : AtomId} {u : Store}
    (hrun : (Store.assert p (some t)).run.run s = (.ok id, u)) :
    p.isGround = true ∧ p.fits = true := by
  cases hground : p.isGround with
  | false =>
    unfold Store.assert at hrun
    rw [hground] at hrun
    cases hrun
  | true =>
    refine ⟨rfl, ?_⟩
    have hassert := run_assert h hground (some t)
    split at hassert
    · assumption
    · obtain ⟨e, he⟩ := hassert
      cases he.symm.trans hrun

/-- What is stored of a tree of the grammar is read back from its text. -/
theorem wellNamed_of_fits {p : Pattern} (h : p.Grammatical) (hf : p.fits = true) :
    p.WellNamed := by
  induction h with
  | var v => cases hf
  | node hk name => exact .node hk name
  | link k _ ih =>
    obtain ⟨hcount, hcs⟩ := Bool.and_eq_true_iff.1 hf
    exact .link (fun c hc => ih c hc (fits_of_mem hcs hc)) hcount

theorem ofValue_toValue {t : Truth} (h : t.IsValid) : Truth.ofValue t.toValue = .ok t := by
  show Truth.ofNumbers (.float t.strength) (.float t.confidence) = _
  unfold Truth.ofNumbers Truth.unit
  dsimp only
  rw [if_pos h.strength, if_pos h.confidence]
  rfl

/-- Asserting a text with the record of a truth value is asserting what it is the text of. -/
theorem run_assertFrom_text {p : Pattern} (hp : p.WellNamed) (hground : p.isGround = true)
    {t : Truth} (ht : t.IsValid) (s : Store) :
    (assertFrom (.text p.toText) t.toValue).run.run s = (assert p (some t)).run.run s := by
  have hsource : (Pattern.Source.text p.toText).pattern = .ok p := by
    show (parse p.toText).mapError Error.pattern = _
    rw [parse_toText hp]
    rfl
  unfold assertFrom
  rw [hsource, run_lift_bind]
  show (assertValue p t.toValue).run.run s = _
  unfold assertValue
  rw [hground]
  show (((Truth.ofValue t.toValue).mapError Error.truth : Except Error Truth) >>=
    fun t => assert p (some t) : StoreM AtomId).run.run s = _
  rw [ofValue_toValue ht, run_lift_bind]
  rfl

/-- Whether a pending statement is a tree of the grammar with its text and a truth value. -/
structure Printable (e : Pattern × Conclusion) : Prop where
  grammatical : e.1.Grammatical
  valid : e.2.truth.IsValid
  statement : e.2.statement = e.1.toText

theorem Fires.grammatical {q : Pattern} {t : Truth} (h : Fires facts rules params q t)
    (hinv : facts.Inv) (hp : facts.Plain) (hrules : ∀ r ∈ rules, r.conclusion.Grammatical) :
    q.Grammatical := by
  obtain ⟨hr, hsols, hsol, hq, _, _⟩ := h
  have hsolved := solved_of_solutions hinv (holds_empty _) hsols hsol
  rw [eq_of_instantiate hinv hp hsolved.holds hq]
  exact (hrules _ hr).subst fun v _ => grammatical_treesOf hinv hp hsolved.holds v

theorem Round.Keeps.printable {round : Round} (hk : round.Keeps facts rules params)
    (hinv : facts.Inv) (hp : facts.Plain) (hrules : ∀ r ∈ rules, r.conclusion.Grammatical) :
    ∀ e ∈ round.pending.values, Printable e := by
  rintro ⟨p, k⟩ he
  obtain ⟨d, hd, heq⟩ := List.mem_map.1 he
  have hget : round.pending.get? d.1 = some d.2 := Table.find_of_mem hk.nodup hd
  rw [heq] at hget
  obtain ⟨_, htext, hw⟩ := hk.pending _ _ _ hget
  exact ⟨hw.fires.grammatical hinv hp hrules, hw.fires.isValid hinv, htext⟩

/-! ## Following a run -/

/-- Whether asserting conclusions in a store makes it a twin of the facts of a run. -/
structure Adopted (s : Store) (facts : Store) (ks : List Conclusion) : Prop where
  inv : facts.Inv
  plain : facts.Plain
  twin : ∃ u, (adopt ks).run.run s = (.ok (), u) ∧ u.Inv ∧ Twin id facts u

theorem run_adopt_cons {k : Conclusion} {id : AtomId} {u : Store}
    (h : (assertFrom (.text k.statement) k.truth.toValue).run.run s = (.ok id, u))
    (ks : List Conclusion) : (adopt (k :: ks)).run.run s = (adopt ks).run.run u := by
  rw [adopt, run_bind, h]

theorem run_adopt_append {u : Store} (h : (adopt ks).run.run s = (.ok (), u))
    (ks' : List Conclusion) : (adopt (ks ++ ks')).run.run s = (adopt ks').run.run u := by
  induction ks generalizing s with
  | nil =>
    cases h
    rfl
  | cons k ks ih =>
    obtain ⟨id, v, hk, h⟩ := run_bind_ok h
    rw [List.cons_append, run_adopt_cons hk]
    exact ih h

/-- Storing one more statement of a run is asserting it by its text. -/
theorem Adopted.assert (h : Adopted s facts ks) {e : Pattern × Conclusion} (he : Printable e)
    {id : AtomId} (hrun : (Store.assert e.1 (some e.2.truth)).run.run facts = (.ok id, facts')) :
    Adopted s facts' (ks ++ [e.2]) := by
  obtain ⟨u, hadopt, hu, htwin⟩ := h.twin
  have hasserted := asserted_of_run he.grammatical he.valid h.inv h.plain hrun
  obtain ⟨u', hrun', htwin'⟩ := (htwin.assert h.inv hu e.1 e.2.truth).run hrun
  obtain ⟨hground, hfits⟩ := fits_of_assert h.inv hrun
  have htext := run_assertFrom_text (wellNamed_of_fits he.grammatical hfits) hground he.valid u
  rw [← he.statement, hrun'] at htext
  refine ⟨hasserted.inv, hasserted.plain, u', ?_, ?_, htwin'⟩
  · rw [run_adopt_append hadopt, run_adopt_cons htext]
    rfl
  · have hinv := (changes_assert u e.1 (some e.2.truth)
      fun t ht => Option.some.inj ht ▸ he.valid).inv hu
    rwa [hrun'] at hinv

theorem Adopted.accept (h : Adopted s facts ks) {n : Nat} {es : List (Pattern × Conclusion)}
    (hes : ∀ e ∈ es, Printable e) {truncated : Bool}
    (hrun : Forward.accept n es facts ks = .ok (facts', ks', truncated)) :
    Adopted s facts' ks' := by
  induction es generalizing facts ks with
  | nil =>
    cases hrun
    exact h
  | cons e es ih =>
    obtain ⟨p, k⟩ := e
    obtain ⟨he, hes⟩ := List.forall_mem_cons.1 hes
    unfold Forward.accept at hrun
    split at hrun
    · cases hrun
      exact h
    · split at hrun
      · next hassert => exact ih (h.assert he hassert) hes hrun
      · cases hrun

/-- Whether no firing over the facts is left to be stored. -/
structure Saturated (facts : Store) (rules : List Rule) (params : Params) : Prop where
  tenable : Tenable facts rules params
  exhausted : ∀ q t, ¬ Worthy facts rules params q t

/-- A round that covers what is worth storing and has nothing pending leaves nothing. -/
theorem Round.Complete.exhausted {round : Round} (h : round.Complete facts rules params)
    (hempty : round.pending.entries.isEmpty = true) (q : Pattern) (t : Truth) :
    ¬ Worthy facts rules params q t := by
  intro hw
  obtain ⟨c, hget, _⟩ := h.covers q t hw
  have hmem := Table.mem_of_find hget
  rw [List.isEmpty_iff.1 hempty] at hmem
  cases hmem

/-- A run that ends by itself ends over facts that nothing is left of, and these are what its
conclusions make of the store. -/
theorem saturated_of_iterate (hrules : ∀ r ∈ rules, r.conclusion.Grammatical) {deadline : Deadline}
    {more iteration polls : Nat} {run run' : Run} {outcome : Outcome}
    (h : Adopted s run.facts run.conclusions)
    (hrejected : ∀ k x, run.rejected.get? k = some x → inUnit x = true ∧ ¬ x ≥ params.threshold)
    (hrun : iterate rules params deadline more iteration polls run = .ok (outcome, run'))
    (hbound : outcome.boundReached = false) (hcomplete : outcome.incomplete = false) :
    Adopted s run'.facts run'.conclusions ∧ Saturated run'.facts rules params := by
  induction more generalizing iteration polls run with
  | zero =>
    cases hrun
    cases hbound
  | succ more ih =>
    unfold iterate at hrun
    split at hrun
    · cases hrun
      cases hcomplete
    · obtain ⟨round, hround, hrun⟩ := bind_eq_ok hrun
      have hread := readable_of_plain h.plain
      obtain ⟨hkeeps, hcovers⟩ := fireAll_spec h.inv hread (keeps_empty hrejected _) hround
      dsimp only at hrun
      split at hrun
      · next hempty =>
        cases hrun
        exact ⟨h, (fireAll_ok_iff h.inv hread _ _).1 ⟨round, hround⟩,
          Round.Complete.exhausted ⟨hkeeps, hcovers⟩ hempty⟩
      · obtain ⟨⟨facts, ks, truncated⟩, haccept, hrun⟩ := bind_eq_ok hrun
        have hnext := h.accept (hkeeps.printable h.inv h.plain hrules) haccept
        dsimp only at hrun
        split at hrun
        · cases hrun
          cases hbound
        · exact ih hnext hkeeps.rejected hrun

/-! ## Running again -/

/-- What is left of some facts is what is left of the facts of a twin. -/
theorem Saturated.twin (h : Saturated facts rules params) (hinv : facts.Inv) (hp : facts.Plain)
    (hrules : ∀ r ∈ rules, r.conclusion.Grammatical) {v : Store} (hv : v.Inv)
    (ht : Twin id facts v) : Saturated v rules params := by
  have hread := readable_of_plain hp
  have hagrees : Agrees facts v := fun q => by
    rw [ht.rating]
    exact agrees_refl hinv q
  have hbeside : Beside facts facts v :=
    ⟨hinv, overlay_refl hinv hread, ht.overlay hv hread, hagrees⟩
  have hsame : Rule.Mirrored rules rules := fun r hr => ⟨r, hr, .refl _, rfl, rfl, rfl⟩
  refine ⟨h.tenable.mirror hbeside hsame, fun q t hw => ?_⟩
  obtain ⟨t', hw', _⟩ := hw.mirror hbeside.symm hsame fun r hr => (hrules r hr).legible
  exact h.exhausted q t' hw'

/-- Over facts that nothing is left of, the first iteration is the last. -/
theorem Saturated.iterate (h : Saturated facts rules params) (hinv : facts.Inv)
    (hp : facts.Plain) (clock : Clock) (more : Nat) : ∃ run,
      Forward.iterate rules (untimed params) ⟨none, clock⟩ (more + 1) 1 0 ⟨facts, [], [], .empty⟩ =
        .ok (⟨false, false, 1⟩, run) ∧ run.conclusions = [] := by
  have hread := readable_of_plain hp
  obtain ⟨round, hround⟩ := (fireAll_ok_iff hinv hread 1 ⟨[], .empty, .empty⟩).2 h.tenable
  obtain ⟨hkeeps, _⟩ := fireAll_spec hinv hread (keeps_empty (below_empty params) []) hround
  have hempty : round.pending.entries.isEmpty = true := by
    cases hentries : round.pending.entries with
    | nil => rfl
    | cons e es =>
      -- Whatever is pending would have been left.
      have hget : round.pending.get? e.1 = some (e.2.1, e.2.2) :=
        Table.find_of_mem hkeeps.nodup (hentries ▸ List.mem_cons_self ..)
      exact absurd (hkeeps.pending _ _ _ hget).2.2 (h.exhausted _ _)
  exact ⟨_, iterate_of_nothing (untimed params) hround hempty, rfl⟩

/-- A run over a whole store that ends by itself is finished: its conclusions can be asserted in
the store one by one, and a run over the store that they make, with no limit on time, ends after
one iteration without a conclusion. -/
theorem chain_saturates {s : Store} (h : s.Reachable) (hp : s.Plain) {base : RuleBase}
    (hrules : ∀ r ∈ base.rules, r.conclusion.Grammatical) {params : Params} {clock : Clock}
    {result : Result} (hrun : chain s base.inOrder none params clock = .ok result)
    (hbound : result.outcome.boundReached = false)
    (hcomplete : result.outcome.incomplete = false) :
    ∃ u, (adopt result.conclusions).run.run s = (.ok (), u) ∧ ∀ clock', ∃ again,
      chain u base.inOrder none (untimed params) clock' = .ok again ∧ again.conclusions = [] ∧
        again.outcome = ⟨false, false, 1⟩ := by
  have hinOrder : ∀ r ∈ base.inOrder, r.conclusion.Grammatical := fun r hr =>
    hrules r (RuleBase.mem_inOrder.1 hr).1
  unfold chain at hrun
  obtain ⟨texts, _, hrun⟩ := bind_eq_ok hrun
  obtain ⟨⟨outcome, run⟩, hiterate, hrun⟩ := bind_eq_ok hrun
  cases hrun
  have hstart : Adopted s s.snapshot [] := by
    have htwin : Twin id s s.snapshot := twin_snapshot h.inv
    exact ⟨h.inv.subset _, htwin.plain hp, s, rfl, h.inv, htwin.symm⟩
  obtain ⟨hadopted, hsaturated⟩ := saturated_of_iterate hinOrder hstart
    (below_empty params) hiterate hbound hcomplete
  obtain ⟨u, hadopt, hu, htwin⟩ := hadopted.twin
  refine ⟨u, hadopt, fun clock' => ?_⟩
  -- A run without iterations would have reached its bound.
  obtain ⟨more, hmore⟩ : ∃ more, params.maxSteps = more + 1 := by
    refine Nat.exists_eq_succ_of_ne_zero fun hzero => ?_
    rw [hzero] at hiterate
    cases hiterate
    cases hbound
  have hplain := htwin.plain hadopted.plain
  obtain ⟨texts', htexts'⟩ := exists_toTexts hu (readable_of_plain hplain) fun id hid => hid
  have hcopy := hsaturated.twin hadopted.inv hadopted.plain hinOrder (hu.subset u.ids)
    (htwin.trans (twin_snapshot hu))
  obtain ⟨last, hlast, hnone⟩ := hcopy.iterate (hu.subset _)
    ((twin_snapshot hu).plain hplain) clock' more
  refine ⟨⟨⟨false, false, 1⟩, texts', last.steps, last.conclusions⟩, ?_, hnone, rfl⟩
  unfold chain
  show (u.toTexts u.ids >>= _) = _
  rw [htexts']
  show (Forward.iterate _ (untimed params) ⟨none, clock'⟩ params.maxSteps 1 0 _ >>= _) = _
  rw [hmore]
  show (Forward.iterate _ (untimed params) ⟨none, clock'⟩ (more + 1) 1 0
    ⟨u.subset u.ids, [], [], .empty⟩ >>= _) = _
  rw [hlast]
  rfl

open Rows in
/-- What a run over one row comes to is all there is to find. -/
theorem chain_saturates_swap : ∃ result,
    chain pair (RuleBase.inOrder ⟨[swap]⟩) none .default (fun _ => 0) = .ok result ∧
      result.conclusions.map (fun k => (k.statement, k.truth.confidence)) =
        [("(List (List (Concept \"b\") (Concept \"a\")))", 0.9 * 0.8),
          ("(List (List (Concept \"a\") (Concept \"b\")))", 0.9 * 0.8)] ∧
      ∃ u, (adopt result.conclusions).run.run pair = (.ok (), u) ∧ ∀ clock, ∃ again,
        chain u (RuleBase.inOrder ⟨[swap]⟩) none (untimed .default) clock = .ok again ∧
          again.conclusions = [] ∧ again.outcome = ⟨false, false, 1⟩ := by
  have hplain : pair.Plain := plain_pair
  have hends : ((chain pair [swap] none .default fun _ => 0).toOption.map fun result =>
      (result.outcome.boundReached, result.outcome.incomplete)) = some (false, false) := by
    decide +kernel
  obtain ⟨result, hrun, hreports⟩ := exists_of_reports reports_swap
  rw [hrun] at hends
  obtain ⟨hbound, hcomplete⟩ := Prod.mk.inj (Option.some.inj hends)
  rw [← RuleBase.inOrder_singleton (r := swap) rfl] at hrun
  exact ⟨result, hrun, hreports, chain_saturates (Store.Reachable.single _) hplain
    (List.forall_mem_singleton.2 grammatical_swap) hrun hbound hcomplete⟩

end Credence.Forward
