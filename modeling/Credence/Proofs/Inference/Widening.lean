import Credence.Proofs.Inference.Alike
import Credence.Proofs.Inference.Analogy
import Credence.Proofs.Inference.Calendar
import Credence.Proofs.Inference.Suggestion
/-!
# Unflagged results under wider bounds

An analogy or a temporal result that no bound has cut keeps its pairs under wider
bounds: the same ones are compared, mapped and related. Its predictions are cut without
a flag, so the whole result stays the same exactly if there are no more of them than
results may be given: as many as the source links suggest different new statements, or
as many as labels recur.
-/

namespace Credence

/-- Whether a run gives one result under these and under all wider bounds. -/
def Params.Suffice {α : Type} (params : Params) (run : Params → Except Error α) (r : α) : Prop :=
  ∀ m n, params.maxSteps ≤ m → params.maxResults ≤ n → run (params.widened m n) = .ok r

/-! ## Analogies -/

namespace Analogy

section

variable {s : Store} {params : Params} {m n : Nat}

theorem compared_of_length_le {sources targets : List Atom}
    (h : (pairs sources targets).length ≤ params.maxSteps) :
    compared params sources targets = (pairs sources targets, false) := by
  unfold compared
  dsimp only
  rw [List.take_of_length_le h, decide_eq_false (Nat.not_lt.2 h)]

theorem compared_widened {sources targets : List Atom}
    (h : (compared params sources targets).2 = false) (hm : params.maxSteps ≤ m) :
    compared (params.widened m n) sources targets = compared params sources targets := by
  have hle : (pairs sources targets).length ≤ params.maxSteps := by
    unfold compared at h
    simpa using h
  have hle' : (pairs sources targets).length ≤ (params.widened m n).maxSteps := Nat.le_trans hle hm
  rw [compared_of_length_le hle, compared_of_length_le hle']

theorem assign_widened {xs : List Scored} {usedS usedT : List Nat} {done : List Mapped}
    (h : (assign params xs usedS usedT done).2 = false) (hn : params.maxResults ≤ n) :
    assign (params.widened m n) xs usedS usedT done = assign params xs usedS usedT done := by
  induction xs generalizing usedS usedT done with
  | nil => rfl
  | cons x xs ih =>
    unfold assign at h ⊢
    by_cases hused : (usedS.contains x.source.2 || usedT.contains x.target.2) = true
    · rw [if_pos hused] at h ⊢
      rw [if_pos hused]
      exact ih h
    · rw [if_neg hused] at h ⊢
      rw [if_neg hused]
      by_cases hfull : done.length ≥ params.maxResults
      · rw [if_pos hfull] at h
        cases h
      · rw [if_neg hfull] at h ⊢
        rw [if_neg (by rw [Params.maxResults_widened]; omega)]
        exact ih h

/-- The pairs that are mapped, and whether the bound on results left one out. -/
def mappedOf (s : Store) (params : Params) (floor : Float) (sources targets : List Atom) :
    List Mapped × Bool :=
  assign params ((similarPairs s floor (compared params sources targets).1).mergeSort Scored.before)
    [] [] []

/-- The statements that the pairs mapped between two domains suggest. -/
def suggestedBy (s : Store) (source target : List AtomId) (params : Params) (floor : Float) :
    Except Error (List String) :=
  let sources := source.filterMap s.get?
  suggested s (correspondences s (mappedOf s params floor sources (target.filterMap s.get?)).1)
    sources

/-- An unflagged run under wider bounds finds the same, but for the predictions. -/
theorem reason_widened {source target : List AtomId} {floor : Float} {r : Result}
    (h : reason s source target params floor = .ok r) (hflag : r.outcome.boundReached = false)
    (hm : params.maxSteps ≤ m) (hn : params.maxResults ≤ n) :
    reason s source target (params.widened m n) floor =
      (project s (params.widened m n) (correspondences s
        (mappedOf s params floor (source.filterMap s.get?) (target.filterMap s.get?)).1)
        (source.filterMap s.get?) []).map fun ps => { r with predictions := ps } := by
  rw [reason_eq] at h ⊢
  obtain ⟨texts, htexts, h⟩ := bind_eq_ok h
  obtain ⟨texts', htexts', h⟩ := bind_eq_ok h
  rw [htexts, htexts']
  generalize source.filterMap s.get? = sources at h ⊢
  generalize target.filterMap s.get? = targets at h ⊢
  show answer s (params.widened m n) floor sources targets texts texts' = _
  unfold answer at h ⊢
  dsimp only at h ⊢
  obtain ⟨analogies, hanalogies, h⟩ := bind_eq_ok h
  obtain ⟨predictions, -, h⟩ := bind_eq_ok h
  cases h
  obtain ⟨hcut, hcapped⟩ := Bool.or_eq_false_iff.1 hflag
  rw [compared_widened hcut hm, assign_widened hcapped hn, hanalogies]
  unfold mappedOf
  cases project s _ _ _ _ with
  | error e => rfl
  | ok ps => rfl

/-- Wider bounds change nothing in an unflagged result but its predictions. -/
theorem eq_of_widened {source target : List AtomId} {floor : Float} {r r' : Result}
    (h : reason s source target params floor = .ok r) (hflag : r.outcome.boundReached = false)
    (hm : params.maxSteps ≤ m) (hn : params.maxResults ≤ n)
    (h' : reason s source target (params.widened m n) floor = .ok r') :
    r' = { r with predictions := r'.predictions } := by
  obtain ⟨ps, -, rfl⟩ := map_eq_ok ((reason_widened h hflag hm hn).symm.trans h')
  rfl

/-- An unflagged run gives the same result under all wider bounds exactly if the source suggests no
more different statements than there may be results. -/
theorem suffice_iff {source target : List AtomId} {floor : Float} {r : Result}
    (h : reason s source target params floor = .ok r) (hflag : r.outcome.boundReached = false) :
    params.Suffice (fun p => reason s source target p floor) r ↔
      ∃ texts, suggestedBy s source target params floor = .ok texts ∧
        differing texts ≤ params.maxResults := by
  have hwide := fun m n => reason_widened (m := m) (n := n) h hflag
  unfold suggestedBy
  dsimp only
  generalize hsources : source.filterMap s.get? = sources at hwide ⊢
  generalize correspondences s _ = map at hwide ⊢
  -- The run itself is the one with its own bounds.
  have hself : project s params map sources [] = .ok r.predictions := by
    have hrun := hwide params.maxSteps params.maxResults (Nat.le_refl _) (Nat.le_refl _)
    obtain ⟨ps, hps, heq⟩ := map_eq_ok (hrun.symm.trans h)
    rw [← heq]
    exact hps
  constructor
  · intro hall
    have hn : params.maxResults ≤ params.maxResults + sources.length := Nat.le_add_right ..
    have hrun := hall params.maxSteps _ (Nat.le_refl _) hn
    obtain ⟨ps, hps, heq⟩ := map_eq_ok ((hwide _ _ (Nat.le_refl _) hn).symm.trans hrun)
    have hpredictions : ps = r.predictions := congrArg Result.predictions heq
    obtain ⟨texts, htexts, hle⟩ := differing_le_of_project hps (Nat.le_add_left ..)
    rw [hpredictions] at hle
    exact ⟨texts, htexts, Nat.le_trans hle (length_le_of_project hself (Nat.zero_le _))⟩
  · rintro ⟨texts, htexts, hle⟩ m n hm hn
    refine (hwide m n hm hn).trans ?_
    rw [project_widened_of_differing_le htexts hle hn, hself]
    rfl

end

end Analogy

/-! ## Temporal reasoning -/

namespace Temporal

/-- The predictions of all labels that recur, where the calendar holds them. -/
def recurring (rs : List Record) : List (Except Error Prediction) :=
  (startsOf rs).entries.filterMap fun e => recurrence? e.1 e.2

theorem predictions_of_length_le {rs : List Record} {n : Nat} (h : (recurring rs).length ≤ n) :
    predictions rs n = (recurring rs).mapM id :=
  congrArg (List.mapM id) (List.take_of_length_le h)

theorem length_of_predictions {rs : List Record} {n : Nat} {ps : List Prediction}
    (h : predictions rs n = .ok ps) : ps.length = min n (recurring rs).length :=
  (forall₂_of_mapM h).length_eq.symm.trans List.length_take

section

variable {s : Store} {params : Params} {m n : Nat}

theorem relateAll_widened {maxSteps : Nat} {clock : Clock} {ps : List (Record × Record)}
    {done readings : Nat} (hm : maxSteps ≤ m)
    (h : (relateAll maxSteps ⟨none, clock⟩ ps done readings).1.boundReached = false) :
    relateAll m ⟨none, clock⟩ ps done readings =
      relateAll maxSteps ⟨none, clock⟩ ps done readings := by
  induction ps generalizing done readings with
  | nil => rfl
  | cons p ps ih =>
    unfold relateAll at h ⊢
    by_cases hfull : done ≥ maxSteps
    · rw [if_pos hfull] at h
      cases h
    · rw [if_neg hfull] at h ⊢
      rw [if_neg (by omega)]
      simp only [Deadline.poll_none, Bool.false_eq_true, if_false] at h ⊢
      rw [ih h]

variable {facts : List Fact} {claims : List Claim} {window : Option String}
  {reference : Option Instant} {clock : Clock} {r : Result}

/-- The result for records and what is predicted of them. -/
def resultOf (params : Params) (claims : List Claim) (window : Option String) (clock : Clock)
    (records : List Record) (warnings : List Warning) (expected : List Prediction) : Result :=
  let (outcome, related) :=
    relateAll params.maxSteps ⟨params.timeout, clock⟩ (pairs records) 0 0
  ⟨outcome, window, records, related, violations records claims,
    warnings ++ claims.flatMap (Claim.warnings records), expected⟩

theorem reason_of_records {w : Option Window} {records : List Record} {warnings : List Warning}
    (hw : windowOf window = .ok w)
    (hrecords : recordsOf s params.useUncertainty w reference facts = .ok (records, warnings)) :
    reason s facts claims params window reference clock =
      (predictions records params.maxResults).map
        (resultOf params claims window clock records warnings) := by
  unfold reason
  rw [hw]
  show (recordsOf s params.useUncertainty w reference facts >>= _) = _
  rw [hrecords]
  show (predictions records params.maxResults >>= _) = _
  cases predictions records params.maxResults with
  | error e => rfl
  | ok ps => rfl

theorem resultOf_widened (ht : params.timeout = none) {records : List Record}
    {warnings : List Warning} {expected : List Prediction}
    (hflag : (resultOf params claims window clock records warnings expected).outcome.boundReached =
      false) (hm : params.maxSteps ≤ m) (clock' : Clock) (ps : List Prediction) :
    resultOf (params.widened m n) claims window clock' records warnings ps =
      { resultOf params claims window clock records warnings expected with predictions := ps } := by
  have hpoll : Deadline.poll ⟨none, clock'⟩ = Deadline.poll ⟨none, clock⟩ := rfl
  unfold resultOf at hflag ⊢
  rw [ht] at hflag
  dsimp only [Params.maxSteps_widened, Params.timeout_widened]
  rw [ht, relateAll_congr hpoll, relateAll_widened hm hflag]

/-- An unflagged run without a time allowed finds the same under wider bounds, but for the
predictions. -/
theorem reason_widened (ht : params.timeout = none)
    (h : reason s facts claims params window reference clock = .ok r)
    (hflag : r.outcome.boundReached = false) (hm : params.maxSteps ≤ m) (clock' : Clock) :
    reason s facts claims (params.widened m n) window reference clock' =
      (predictions r.facts n).map fun ps => { r with predictions := ps } := by
  have hinputs := h
  unfold reason at hinputs
  obtain ⟨w, hw, hinputs⟩ := bind_eq_ok hinputs
  obtain ⟨⟨records, warnings⟩, hrecords, -⟩ := bind_eq_ok hinputs
  have hwide : recordsOf s (params.widened m n).useUncertainty w reference facts =
    .ok (records, warnings) := hrecords
  rw [reason_of_records hw hrecords] at h
  obtain ⟨expected, -, rfl⟩ := map_eq_ok h
  rw [reason_of_records hw hwide, funext (resultOf_widened ht hflag hm clock')]
  rfl

/-- Without a time allowed wider bounds change nothing in an unflagged result but its
predictions. -/
theorem eq_of_widened (ht : params.timeout = none)
    (h : reason s facts claims params window reference clock = .ok r)
    (hflag : r.outcome.boundReached = false) (hm : params.maxSteps ≤ m) {clock' : Clock}
    {r' : Result}
    (h' : reason s facts claims (params.widened m n) window reference clock' = .ok r') :
    r' = { r with predictions := r'.predictions } := by
  obtain ⟨ps, -, rfl⟩ := map_eq_ok ((reason_widened ht h hflag hm clock').symm.trans h')
  rfl

/-- Starts at fixed distances and in order, whose mean gap leads to an instant in the calendar,
predict it. -/
theorem exists_recurrence {label : String} {starts : List Instant} {last : Instant}
    (hfixed : ∀ t ∈ starts, t.zone.isFixed = true)
    (hsorted : starts.Pairwise fun t t' => (!t'.before t) = true) (hlen : 2 ≤ starts.length)
    (hlast : starts.getLast? = some last) (hmean : ¬ Number.mean (gaps starts) ≤ 0.0)
    (hreaches : last.reaches (Span.ofSeconds (Number.mean (gaps starts))) = true) :
    ∃ p, recurrence? label starts = some (.ok p) := by
  unfold recurrence? Instant.inOrder
  rw [if_pos (by simpa using .inl hfixed), List.mergeSort_of_pairwise hsorted]
  dsimp only
  rw [hlast]
  dsimp only
  rw [if_neg (by simpa using ⟨hlen, hmean⟩), Instant.shift_of_reaches hreaches]
  exact ⟨_, rfl⟩

/-- An unflagged run without a time allowed gives the same result under all wider bounds exactly if
no more labels recur than there may be results. -/
theorem suffice_iff (ht : params.timeout = none)
    (h : reason s facts claims params window reference clock = .ok r)
    (hflag : r.outcome.boundReached = false) :
    (∀ clock', params.Suffice (fun p => reason s facts claims p window reference clock') r) ↔
      (recurring r.facts).length ≤ params.maxResults := by
  have hwide := fun m n hm clock' => reason_widened (m := m) (n := n) ht h hflag hm clock'
  have hself : predictions r.facts params.maxResults = .ok r.predictions := by
    have hrun := h.symm.trans (hwide params.maxSteps params.maxResults (Nat.le_refl _) clock)
    obtain ⟨ps, hps, heq⟩ := map_eq_ok hrun.symm
    rw [← heq]
    exact hps
  constructor
  · intro hall
    have hn := Nat.le_max_left params.maxResults (recurring r.facts).length
    have hrun := hall clock params.maxSteps _ (Nat.le_refl _) hn
    obtain ⟨ps, hps, heq⟩ := map_eq_ok ((hwide _ _ (Nat.le_refl _) clock).symm.trans hrun)
    have hpredictions : ps = r.predictions := congrArg Result.predictions heq
    have hlen := length_of_predictions hps
    rw [hpredictions, length_of_predictions hself] at hlen
    omega
  · intro hle clock' m n hm hn
    refine (hwide m n hm clock').trans ?_
    rw [predictions_of_length_le (Nat.le_trans hle hn), ← predictions_of_length_le hle, hself]
    rfl

end

end Temporal

/-! ## Unflagged results -/

/-- Wider bounds change nothing in an unflagged analogical or, without a time allowed, temporal
result but its predictions, and not these either exactly if there are no more of them than there may
be results. -/
theorem unflagged_complete (s : Store) (params : Params) :
    (∀ source target floor r, Analogy.reason s source target params floor = .ok r →
      r.outcome.boundReached = false →
      (∀ m n r', params.maxSteps ≤ m → params.maxResults ≤ n →
        Analogy.reason s source target (params.widened m n) floor = .ok r' →
        r' = { r with predictions := r'.predictions }) ∧
      (params.Suffice (fun p => Analogy.reason s source target p floor) r ↔
        ∃ texts, Analogy.suggestedBy s source target params floor = .ok texts ∧
          differing texts ≤ params.maxResults)) ∧
    (params.timeout = none → ∀ facts claims window reference clock r,
      Temporal.reason s facts claims params window reference clock = .ok r →
      r.outcome.boundReached = false →
      (∀ m n clock' r', params.maxSteps ≤ m → params.maxResults ≤ n →
        Temporal.reason s facts claims (params.widened m n) window reference clock' = .ok r' →
        r' = { r with predictions := r'.predictions }) ∧
      ((∀ clock', params.Suffice
          (fun p => Temporal.reason s facts claims p window reference clock') r) ↔
        (Temporal.recurring r.facts).length ≤ params.maxResults)) := by
  constructor
  · intro source target floor r h hflag
    exact ⟨fun m n r' hm hn => Analogy.eq_of_widened h hflag hm hn, Analogy.suffice_iff h hflag⟩
  · intro ht facts claims window reference clock r h hflag
    exact ⟨fun m n clock' r' hm _ => Temporal.eq_of_widened ht h hflag hm,
      Temporal.suffice_iff ht h hflag⟩

/-! ### Two suggestions and two recurrences -/

namespace Twice

/-- A store with two things and, over the first of them, a row and a link to itself. -/
def store : Store :=
  ((do
    let a ← Store.addNode .concept "a" .default
    let _ ← Store.addNode .concept "b" .default
    let _ ← Store.addLink .list [a] .default
    discard <| Store.addLink .inheritance [a, a] .default : StoreM Unit).run.run .empty).2

/-- The first thing and its links carried over to the second. -/
def analogy (params : Params) : Except Error Analogy.Result :=
  Analogy.reason store [1, 3, 4] [2] params 0.5

/-- A fact that lasts for a second, from some seconds after the start of 1970 on. -/
def fact (label : String) (seconds : Int) : Temporal.Fact :=
  ⟨label, ⟨seconds * 1000000, 0⟩, some 1000000, none, none⟩

/-- A clock that stands still. -/
def still : Clock := fun _ => 0.0

/-- Two labels that occur twice. -/
def recurrences (clock : Clock) (params : Params) : Except Error Temporal.Result :=
  Temporal.reason store [fact "a" 0, fact "a" 10, fact "b" 0, fact "b" 20] [] params none none clock

/-- What the facts are recorded as. -/
def records : List Temporal.Record :=
  [⟨"a", ⟨0, 0⟩, ⟨1000000, 0⟩, false, 1.0⟩, ⟨"a", ⟨10000000, 0⟩, ⟨11000000, 0⟩, false, 1.0⟩,
    ⟨"b", ⟨0, 0⟩, ⟨1000000, 0⟩, false, 1.0⟩, ⟨"b", ⟨20000000, 0⟩, ⟨21000000, 0⟩, false, 1.0⟩]

/-- The usual parameters with some number of results. -/
def upTo (n : Nat) : Params := Params.default.widened 10 n

theorem exists_analogy {n : Nat} (hn : n = 1 ∨ n = 10) :
    ∃ r texts, analogy (upTo n) = .ok r ∧ r.outcome.boundReached = false ∧
      Analogy.suggestedBy store [1, 3, 4] [2] (upTo n) 0.5 = .ok texts ∧ differing texts = 2 := by
  have hrun : (analogy (upTo n)).toOption.map (fun r => r.outcome.boundReached) = some false := by
    rcases hn with rfl | rfl <;> decide +kernel
  have hsuggested : (Analogy.suggestedBy store [1, 3, 4] [2] (upTo n) 0.5).toOption.map
      differing = some 2 := by
    rcases hn with rfl | rfl <;> decide +kernel
  obtain ⟨r, hr, hflag⟩ := exists_of_map_toOption hrun
  obtain ⟨texts, htexts, htwo⟩ := exists_of_map_toOption hsuggested
  exact ⟨r, texts, hr, hflag, htexts, htwo⟩

theorem recurring_records : ∃ p p', Temporal.recurring records = [.ok p, .ok p'] := by
  obtain ⟨p, hp⟩ : ∃ p, Temporal.recurrence? "a" [⟨0, 0⟩, ⟨10000000, 0⟩] = some (.ok p) :=
    Temporal.exists_recurrence (by decide) (by decide) (by decide) rfl (by decide +kernel)
      (by decide +kernel)
  obtain ⟨p', hp'⟩ : ∃ p, Temporal.recurrence? "b" [⟨0, 0⟩, ⟨20000000, 0⟩] = some (.ok p) :=
    Temporal.exists_recurrence (by decide) (by decide) (by decide) rfl (by decide +kernel)
      (by decide +kernel)
  have hstarts : (Temporal.startsOf records).entries =
      [("a", [⟨0, 0⟩, ⟨10000000, 0⟩]), ("b", [⟨0, 0⟩, ⟨20000000, 0⟩])] := rfl
  refine ⟨p, p', ?_⟩
  unfold Temporal.recurring
  rw [hstarts, List.filterMap_cons_some (b := .ok p) hp, List.filterMap_cons_some (b := .ok p') hp']
  rfl

theorem exists_recurrences (n : Nat) :
    ∃ r, recurrences still (upTo n) = .ok r ∧ r.outcome.boundReached = false ∧
      (Temporal.recurring r.facts).length = 2 := by
  obtain ⟨p, p', hrecurring⟩ := recurring_records
  have hlen : (Temporal.recurring records).length = 2 := by
    rw [hrecurring]
    rfl
  have hok : ∃ ps, Temporal.predictions records n = .ok ps := by
    show ∃ ps, ((Temporal.recurring records).take n).mapM id = .ok ps
    refine exists_mapM_ok fun x hx => ?_
    have hmem := List.mem_of_mem_take hx
    rw [hrecurring] at hmem
    rcases List.mem_cons.1 hmem with rfl | hmem
    · exact ⟨p, rfl⟩
    · rw [List.mem_singleton.1 hmem]
      exact ⟨p', rfl⟩
  obtain ⟨ps, hps⟩ := hok
  have hrun : recurrences still (upTo n) = _ := Temporal.reason_of_records rfl rfl
  change _ = (Temporal.predictions records n).map _ at hrun
  rw [hps] at hrun
  exact ⟨_, hrun, rfl, hlen⟩

end Twice

open Twice in
theorem unflagged_complete_twice :
    (∃ r, analogy (upTo 10) = .ok r ∧ r.outcome.boundReached = false ∧
      (upTo 10).Suffice analogy r) ∧
    (upTo 10).timeout = none ∧
    ∃ r, recurrences still (upTo 10) = .ok r ∧ r.outcome.boundReached = false ∧
      ∀ clock, (upTo 10).Suffice (recurrences clock) r := by
  obtain ⟨hanalogy, htemporal⟩ := unflagged_complete store (upTo 10)
  refine ⟨?_, rfl, ?_⟩
  · obtain ⟨r, texts, hr, hflag, htexts, htwo⟩ := exists_analogy (.inr rfl)
    have hle : differing texts ≤ 10 := by omega
    exact ⟨r, hr, hflag, (hanalogy _ _ _ r hr hflag).2.2 ⟨texts, htexts, hle⟩⟩
  · obtain ⟨r, hr, hflag, htwo⟩ := exists_recurrences 10
    have hle : (Temporal.recurring r.facts).length ≤ 10 := by omega
    exact ⟨r, hr, hflag, (htemporal rfl _ _ _ _ _ r hr hflag).2.2 hle⟩

open Twice in
/-- With one result, either run leaves a prediction out and does not tell. -/
theorem not_unflagged_complete :
    (∃ r, analogy (upTo 1) = .ok r ∧ r.outcome.boundReached = false ∧
      ¬ (upTo 1).Suffice analogy r) ∧
    ∃ r, recurrences still (upTo 1) = .ok r ∧ r.outcome.boundReached = false ∧
      ¬ ∀ clock, (upTo 1).Suffice (recurrences clock) r := by
  constructor
  · obtain ⟨r, texts, hr, hflag, htexts, htwo⟩ := exists_analogy (.inl rfl)
    refine ⟨r, hr, hflag, fun hall => ?_⟩
    obtain ⟨texts', htexts', hle⟩ := (Analogy.suffice_iff hr hflag).1 hall
    cases htexts.symm.trans htexts'
    have hone : differing texts ≤ 1 := hle
    omega
  · obtain ⟨r, hr, hflag, htwo⟩ := exists_recurrences 1
    refine ⟨r, hr, hflag, fun hall => ?_⟩
    have hone : (Temporal.recurring r.facts).length ≤ 1 :=
      (Temporal.suffice_iff rfl hr hflag).1 hall
    omega

end Credence
