import Credence.Inference.Temporal
import Credence.Proofs.Rule.Failure
import Credence.Proofs.Table
/-!
# Temporal reasoning inside the calendar

Temporal reasoning moves instants by spans: to the end of a fact, to the start of a
window and to the next start of a label that recurs. Where the calendar holds all of
them, and the span of the window can be represented, only atoms that are not stored and
texts that are no window make it fail. Of the documents it is read from, only a duration
below the least span is more than a misfit.
-/

namespace Credence

open Error (Recorded)

/-! ## Spans and instants -/

/-- Whether the calendar holds the instant a span later. -/
def Instant.reaches (i : Instant) (s : Span) : Bool := isRepresentable (i.localTime + s)

theorem Instant.shift_of_reaches {i : Instant} {s : Span} (h : i.reaches s = true) :
    i.shift s = .ok ⟨i.localTime + s, i.zone.first⟩ :=
  if_pos h

/-- Whether the span of a window can be represented; a text that is no window has none. -/
def Span.holdsWindow (w : String) : Bool :=
  match readWindow w with
  | some (x, unit) => (scale x unit).isSome
  | none => true

theorem Span.failsIn_ofWindow {w : String} (h : holdsWindow w = true) :
    FailsIn Recorded (ofWindow w) := by
  unfold holdsWindow at h
  unfold ofWindow
  cases hread : readWindow w with
  | none => exact failsIn_error rfl
  | some p =>
    rw [hread] at h
    dsimp only at h ⊢
    cases hscale : scale p.1 p.2 with
    | none =>
      rw [hscale] at h
      cases h
    | some span => exact failsIn_ok span

theorem Instant.fits_reader (v : Value) : Fits (reader v) := by
  unfold reader
  dsimp only
  split
  · exact fits_ok _
  · exact Reader.fits_fail _

namespace Temporal

/-! ## What has to lie in the calendar -/

/-- Whether the calendar holds the end of a fact. -/
def Fact.endsInside (f : Fact) : Bool := (f.duration.map f.start.reaches).getD true

/-- Whether a window that ends at the reference time leaves an interval out. -/
def leavesOut (window : Option Window) (reference start stop : Instant) : Except Error Bool :=
  match window with
  | some w => w.excludes reference start stop
  | none => .ok false

/-- Whether a fact is left out. -/
def Fact.isExcluded (window : Option Window) (reference : Instant) (f : Fact) :
    Except Error Bool := do
  let stop ← f.stop?.getD (.ok (f.start.later reference))
  leavesOut window reference f.start stop

/-- The starts of the facts of a label that are not left out. -/
def startsKept (window : Option Window) (reference : Instant) (label : String) (fs : List Fact) :
    List Instant :=
  (fs.filter fun f =>
    (f.isExcluded window reference).toOption = some false && f.label = label).map Fact.start

/-- Whether the calendar holds the next start after several, if one is predicted. -/
def recursInside (label : String) (starts : List Instant) : Bool :=
  match recurrence? label starts with
  | some (.error _) => false
  | _ => true

/-- Whether the calendar holds the start of a window. -/
def opensInside (window : Option Window) (reference : Instant) : Bool :=
  (window.map fun w => reference.reaches (-w.length)).getD true

/-- The reference time: the one given, or the latest start or end among facts. -/
def referenceOf (facts : List Fact) (reference : Option Instant) : Option Instant :=
  reference.or (latest facts).toOption.join

/-- Whether all instants and spans that temporal reasoning computes can be represented. -/
def staysInside (facts : List Fact) (window : Option String) (reference : Option Instant) : Bool :=
  (window.map Span.holdsWindow).getD true && facts.all Fact.endsInside &&
    match referenceOf facts reference, (windowOf window).toOption with
    | some t, some w => facts.all fun f =>
      opensInside w t && recursInside f.label (startsKept w t f.label facts)
    | _, _ => true

/-! ## Records -/

theorem failsIn_windowOf {window : Option String}
    (h : (window.map Span.holdsWindow).getD true = true) : FailsIn Recorded (windowOf window) := by
  cases window with
  | none => exact failsIn_ok none
  | some w => exact (Span.failsIn_ofWindow h).bind fun _ _ => failsIn_ok _

theorem Fact.stop_of_endsInside {f : Fact} (h : f.endsInside = true) {x : Except Error Instant}
    (hx : f.stop? = some x) : ∃ t, x = .ok t := by
  unfold endsInside at h
  unfold Fact.stop? at hx
  cases hd : f.duration with
  | none =>
    rw [hd] at hx
    cases hx
  | some d =>
    rw [hd] at h hx
    cases hx
    exact ⟨_, Instant.shift_of_reaches h⟩

theorem exists_latest {fs : List Fact} (h : ∀ f ∈ fs, f.endsInside = true) :
    ∃ t, latest fs = .ok t := by
  have hstops : ∀ x ∈ fs.filterMap Fact.stop?, ∃ t, id x = .ok t := fun x hx => by
    obtain ⟨f, hf, hstop⟩ := List.mem_filterMap.1 hx
    exact Fact.stop_of_endsInside (h f hf) hstop
  obtain ⟨stops, hstops⟩ := exists_mapM_ok hstops
  unfold latest
  rw [hstops]
  dsimp only [bind, Except.bind]
  split
  · exact ⟨_, rfl⟩
  · exact ⟨_, rfl⟩

theorem failsIn_confidenceOf (s : Store) (u : Bool) (f : Fact) :
    FailsIn Recorded (confidenceOf s u f) := by
  unfold confidenceOf
  split
  · exact failsIn_ok _
  · exact failsIn_ok _
  · exact (s.failsIn_atomOf _).bind fun _ _ => failsIn_ok _

/-- A record in steps: the end of the fact, whether it is left out, its confidence. -/
theorem recordOf_eq (s : Store) (u : Bool) (window : Option Window) (reference : Instant)
    (f : Fact) :
    recordOf s u window reference f = (do
      let stop ← f.stop?.getD (.ok (f.start.later reference))
      let excluded ← leavesOut window reference f.start stop
      if excluded then return (none, [.outside f.label ((window.map Window.text).getD "")])
      let confidence ← confidenceOf s u f
      return (some ⟨f.label, f.start, stop, f.duration.isNone, confidence⟩,
        if f.duration.isNone then [.ongoing f.label] else [])) := by
  cases window <;> rfl

theorem failsIn_recordOf (s : Store) (u : Bool) {window : Option Window} {reference : Instant}
    (hopen : opensInside window reference = true) {f : Fact} (h : f.endsInside = true) :
    FailsIn Recorded (recordOf s u window reference f) := by
  rw [recordOf_eq]
  refine FailsIn.bind ?_ fun stop _ => FailsIn.bind ?_ fun excluded _ => ?_
  · cases hstop : f.stop? with
    | none => exact failsIn_ok _
    | some x =>
      obtain ⟨t, rfl⟩ := Fact.stop_of_endsInside h hstop
      exact failsIn_ok t
  · cases window with
    | none => exact failsIn_ok _
    | some w =>
      show FailsIn Recorded (reference.shift (-w.length) >>= _)
      rw [Instant.shift_of_reaches hopen]
      exact failsIn_ok _
  · split
    · exact failsIn_ok _
    · exact (failsIn_confidenceOf s u f).bind fun _ _ => failsIn_ok _

/-- A fact that is not left out has a record with its label and its start; the others have none. -/
theorem recordOf_cases {s : Store} {u : Bool} {window : Option Window} {reference : Instant}
    {f : Fact} {y : Option Record × List Warning} (h : recordOf s u window reference f = .ok y) :
    (f.isExcluded window reference).toOption = some true ∧ y.1 = none ∨
      (f.isExcluded window reference).toOption = some false ∧
        ∃ r, y.1 = some r ∧ r.label = f.label ∧ r.start = f.start := by
  rw [recordOf_eq] at h
  obtain ⟨stop, hstop, h⟩ := bind_eq_ok h
  obtain ⟨excluded, hexcluded, h⟩ := bind_eq_ok h
  have hkept : f.isExcluded window reference = .ok excluded := by
    unfold Fact.isExcluded
    rw [hstop]
    exact hexcluded
  rw [hkept]
  cases excluded with
  | true =>
    cases h
    exact .inl ⟨rfl, rfl⟩
  | false =>
    obtain ⟨confidence, -, h⟩ := bind_eq_ok h
    cases h
    exact .inr ⟨rfl, _, rfl, rfl, rfl⟩

/-- The records of a label start where the facts of the label do that are not left out. -/
theorem starts_of_records {s : Store} {u : Bool} {window : Option Window} {reference : Instant}
    {fs : List Fact} {found : List (Option Record × List Warning)}
    (h : List.Forall₂ (fun f y => recordOf s u window reference f = .ok y) fs found)
    (label : String) :
    ((found.filterMap Prod.fst).filter (·.label = label)).map Record.start =
      startsKept window reference label fs := by
  induction h with
  | nil => rfl
  | @cons f y fs found hf _ ih =>
    unfold startsKept at ih ⊢
    rcases recordOf_cases hf with ⟨hout, hnone⟩ | ⟨hkept, r, hsome, hlabel, hstart⟩
    · rw [List.filterMap_cons_none hnone, ih, List.filter_cons_of_neg (by simp [hout])]
    · rw [List.filterMap_cons_some hsome]
      by_cases hl : f.label = label
      · rw [List.filter_cons_of_pos (by simp [hlabel, hl]),
          List.filter_cons_of_pos (by simp [hkept, hl]), List.map_cons, List.map_cons, hstart, ih]
      · rw [List.filter_cons_of_neg (by simp [hlabel, hl]),
          List.filter_cons_of_neg (by simp [hl]), ih]

/-- Records are made with regard to the reference time; without facts and a time given there is
none. -/
theorem recordsOf_eq (s : Store) (u : Bool) (window : Option Window) (reference : Option Instant)
    {fs : List Fact} (h : ∀ f ∈ fs, f.endsInside = true) :
    recordsOf s u window reference fs = match referenceOf fs reference with
      | none => .ok ([], [])
      | some t => do
        let found ← fs.mapM (recordOf s u window t)
        return (found.filterMap Prod.fst, found.flatMap Prod.snd) := by
  unfold recordsOf referenceOf
  cases reference with
  | some t => rfl
  | none =>
    obtain ⟨t, ht⟩ := exists_latest h
    rw [ht]
    cases t <;> rfl

/-! ## Recurrences -/

theorem startsOf_concat (rs : List Record) (r : Record) :
    startsOf (rs ++ [r]) =
      (startsOf rs).insert r.label (((startsOf rs).get? r.label).getD [] ++ [r.start]) := by
  unfold startsOf
  rw [List.foldl_append]
  rfl

theorem nodup_keys_startsOf (rs : List Record) : (startsOf rs).keys.Nodup := by
  induction rs using List.reverseRecOn with
  | nil => exact List.nodup_nil
  | append_singleton rs r ih =>
    rw [startsOf_concat]
    exact Table.nodup_keys_insert ih _ _

/-- The starts of a label are those of its records. -/
theorem get?_startsOf (rs : List Record) (label : String) :
    ((startsOf rs).get? label).getD [] = (rs.filter (·.label = label)).map Record.start := by
  induction rs using List.reverseRecOn with
  | nil => rfl
  | append_singleton rs r ih =>
    rw [startsOf_concat, Table.get?_insert, List.filter_append, List.map_append, ← ih]
    by_cases hl : r.label = label
    · simp [hl]
    · simp [hl]

theorem recursInside_nil (label : String) : recursInside label [] = true := by
  unfold recursInside recurrence? Instant.inOrder
  rw [List.mergeSort_nil]
  rfl

theorem failsIn_predictions {rs : List Record}
    (h : ∀ label, recursInside label ((rs.filter (·.label = label)).map Record.start) = true)
    (maxResults : Nat) : FailsIn Recorded (predictions rs maxResults) := by
  refine failsIn_mapM fun x hx => ?_
  obtain ⟨e, he, hrec⟩ := List.mem_filterMap.1 (List.mem_of_mem_take hx)
  have hstarts := get?_startsOf rs e.1
  rw [show (startsOf rs).get? e.1 = some e.2 from
    Table.find_of_mem (nodup_keys_startsOf rs) he, Option.getD_some] at hstarts
  have hinside := h e.1
  unfold recursInside at hinside
  rw [← hstarts, hrec] at hinside
  cases x with
  | error error => cases hinside
  | ok p => exact failsIn_ok p

/-! ## Results -/

/-- Temporal reasoning fails in a recorded way only where all that it computes can be represented. -/
theorem failsIn_reason (s : Store) {facts : List Fact} (claims : List Claim) (params : Params)
    {window : Option String} {reference : Option Instant}
    (h : staysInside facts window reference = true) (clock : Clock) :
    FailsIn Recorded (reason s facts claims params window reference clock) := by
  unfold staysInside at h
  simp only [Bool.and_eq_true, List.all_eq_true] at h
  obtain ⟨⟨hwindow, hends⟩, hinside⟩ := h
  refine (failsIn_windowOf hwindow).bind fun w hw => ?_
  rw [recordsOf_eq s _ w reference hends]
  rw [hw] at hinside
  cases ht : referenceOf facts reference with
  | none => exact (failsIn_predictions (fun _ => recursInside_nil _) _).bind fun _ _ => failsIn_ok _
  | some t =>
    rw [ht] at hinside
    have hall : ∀ f ∈ facts, opensInside w t = true ∧
        recursInside f.label (startsKept w t f.label facts) = true := fun f hf =>
      Bool.and_eq_true_iff.1 (List.all_eq_true.1 hinside f hf)
    dsimp only
    have hfacts : FailsIn Recorded (facts.mapM (recordOf s params.useUncertainty w t)) :=
      failsIn_mapM fun f hf => failsIn_recordOf s _ (hall f hf).1 (hends f hf)
    refine (hfacts.bind fun _ _ => failsIn_ok _).bind fun records hrecords => ?_
    obtain ⟨found, hfound, hrecords⟩ := bind_eq_ok hrecords
    cases hrecords
    refine (failsIn_predictions (fun label => ?_) _).bind fun _ _ => failsIn_ok _
    rw [starts_of_records (forall₂_of_mapM hfound)]
    by_cases hlabel : ∃ f ∈ facts, f.label = label
    · obtain ⟨f, hf, rfl⟩ := hlabel
      exact (hall f hf).2
    · have hnone : startsKept w t label facts = [] := by
        unfold startsKept
        refine List.map_eq_nil_iff.2 (List.filter_eq_nil_iff.2 fun f hf => ?_)
        simp [show f.label ≠ label from fun h => hlabel ⟨f, hf, h⟩]
      rw [hnone]
      exact recursInside_nil label

/-! ## Reading -/

open Reader Fields

/-- Whether the least span is not above the duration of a written fact, if it has one. -/
def durationFits (fact : Value) : Bool :=
  match (fact.field? "duration").map Duration.reader with
  | some (.error .overflow) => false
  | _ => true

theorem fits_relationReader (v : Value) : Fits (relationReader v) := by
  refine (fits_text v).bind fun s _ => ?_
  split
  · exact fits_ok _
  · exact fits_fail _

theorem Claim.fits_reader (v : Value) : Fits (reader v) :=
  Fields.fits_reader fun _ _ =>
    (fits_required fun _ v _ => fits_text v).map _
      |>.seq (fits_required fun _ v _ => fits_text v)
      |>.seq (fits_required fun _ v _ => fits_relationReader v)

theorem fits_duration {fields : List (String × Value)} (h : durationFits (.record fields) = true)
    {n : String} {v : Value} (hv : present ["duration"] fields = some (n, v)) :
    Fits (Duration.reader v) := by
  have hlookup : Value.lookup "duration" fields = some v ∧ "duration" = n := by
    simpa [present] using hv
  have hfield : (Value.record fields).field? "duration" = some v := hlookup.1
  unfold durationFits at h
  rw [hfield] at h
  intro d hd
  cases d with
  | misfit issues => trivial
  | overflow =>
    rw [Option.map_some, hd] at h
    cases h

theorem Fact.fits_reader {v : Value} (h : durationFits v = true) : Fits (reader v) :=
  Fields.fits_reader fun fields hv =>
    (fits_required fun _ v _ => fits_name v).map _
      |>.seq (fits_required fun _ v _ => Instant.fits_reader v)
      |>.seq (fits_withDefault fun _ _ hd =>
        fits_optional (fits_guard (fits_duration (by rwa [hv] at h) hd) _ _))
      |>.seq (fits_withDefault fun _ v _ => fits_optional (fits_int v))
      |>.seq (fits_withDefault fun _ v _ => fits_optional (fits_unit v))

end Temporal

end Credence
