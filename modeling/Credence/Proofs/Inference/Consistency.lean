import Credence.Proofs.Inference.Calendar
import Credence.Proofs.Time.Precedence
import Credence.Proofs.Time.Relation
/-!
# When claims are consistent

Claims are checked three times: each pair must be claimed alike whichever event is
named first, each claim must be what the intervals give, and no event may come before
itself. The second check decides: claims that the intervals bear out agree with each
other, as the relation computed the other way round is the inverse, and the events
that they put before others start sooner.

Both reasons need the ends of the intervals to lie on one line. Records of facts that
are read from documents always do, since their ends are at fixed distances from
universal time.
-/

namespace Credence.Temporal

/-- A claim says of all records with its labels how the first lies to the second. -/
def Claim.Truthful (rs : List Record) (c : Claim) : Prop :=
  ∀ r ∈ rs, ∀ r' ∈ rs, r.label = c.event → r'.label = c.other → r.relationTo r' = c.relation

instance (rs : List Record) (c : Claim) : Decidable (c.Truthful rs) :=
  inferInstanceAs (Decidable (∀ r ∈ rs, ∀ r' ∈ rs, r.label = c.event → r'.label = c.other →
    r.relationTo r' = c.relation))

/-- The ends of records. -/
def endsOf (rs : List Record) : List Instant := rs.flatMap fun r => [r.start, r.stop]

/-- The records that claims name. -/
def named (rs : List Record) (cs : List Claim) : List Record :=
  rs.filter fun r => cs.any fun c => c.event = r.label || c.other = r.label

/-- The interval of the first record with a label. -/
def intervalOf (rs : List Record) (l : String) : Interval Instant :=
  ((rs.find? fun r => r.label = l).map Record.interval).getD ⟨default, default⟩

/-- How the record of one label lies to that of another. -/
def relationOf (rs : List Record) (p : String × String) : Relation :=
  .between (intervalOf rs p.1) (intervalOf rs p.2)

variable {rs : List Record} {cs : List Claim} {c : Claim}

/-! ## What the intervals give -/

theorem intervalOf_label (hlabels : (rs.map Record.label).Nodup) {r : Record} (hr : r ∈ rs) :
    intervalOf rs r.label = r.interval := by
  have hfind : rs.find? (fun r' => r'.label = r.label) = some r := by
    induction rs with
    | nil => cases hr
    | cons r' rs ih =>
      obtain ⟨hr', hrs⟩ := List.nodup_cons.1 hlabels
      rcases List.mem_cons.1 hr with rfl | hr
      · exact List.find?_cons_of_pos (decide_eq_true rfl)
      · rw [List.find?_cons_of_neg, ih hrs hr]
        rw [decide_eq_true_eq]
        intro heq
        exact hr' (heq ▸ List.mem_map_of_mem hr)
  unfold intervalOf
  rw [hfind]
  rfl

/-- An interval of records that end no sooner than they start does so as well. -/
theorem intervalOf_ends (hends : ∀ r ∈ rs, ¬ r.stop < r.start) (l : String) :
    ¬ (intervalOf rs l).stop < (intervalOf rs l).start := by
  unfold intervalOf
  cases hfind : rs.find? fun r => r.label = l with
  | none => exact fun h => absurd h (by decide)
  | some r => exact hends r (List.mem_of_find?_eq_some hfind)

theorem relationTo_eq (hlabels : (rs.map Record.label).Nodup) {r r' : Record} (hr : r ∈ rs)
    (hr' : r' ∈ rs) : r.relationTo r' = relationOf rs (r.label, r'.label) := by
  unfold relationOf
  rw [intervalOf_label hlabels hr, intervalOf_label hlabels hr']
  rfl

theorem mem_computed {relation : Relation} : relation ∈ c.computed rs ↔
    ∃ r ∈ rs, r.label = c.event ∧ ∃ r' ∈ rs, r'.label = c.other ∧ r.relationTo r' = relation := by
  unfold Claim.computed
  simp only [mem_distinct, List.mem_flatMap, List.mem_map, List.mem_filter, decide_eq_true_eq,
    and_assoc]

section Known

variable (hlabels : (rs.map Record.label).Nodup)
  (hknown : c.event ∈ rs.map Record.label ∧ c.other ∈ rs.map Record.label)

include hlabels hknown

theorem truthful_iff : c.Truthful rs ↔ c.relation = relationOf rs (c.event, c.other) := by
  obtain ⟨⟨r, hr, hevent⟩, r', hr', hother⟩ := And.intro (List.mem_map.1 hknown.1)
    (List.mem_map.1 hknown.2)
  constructor
  · intro h
    rw [← h r hr r' hr' hevent hother, relationTo_eq hlabels hr hr', hevent, hother]
  · intro h x hx y hy hxe hyo
    rw [h, relationTo_eq hlabels hx hy, hxe, hyo]

theorem relation_mem_computed_iff : c.relation ∈ c.computed rs ↔ c.Truthful rs := by
  rw [mem_computed]
  constructor
  · rintro ⟨r, hr, hevent, r', hr', hother, heq⟩
    rw [truthful_iff hlabels hknown, ← heq, relationTo_eq hlabels hr hr', hevent, hother]
  · intro h
    obtain ⟨⟨r, hr, hevent⟩, r', hr', hother⟩ := And.intro (List.mem_map.1 hknown.1)
      (List.mem_map.1 hknown.2)
    exact ⟨r, hr, hevent, r', hr', hother, h r hr r' hr' hevent hother⟩

omit hlabels in
theorem missing_eq_nil : c.missing rs = [] := by
  unfold Claim.missing
  rw [List.filter_eq_nil_iff]
  intro l hl
  rw [Bool.not_eq_true', Bool.not_eq_false, List.contains_iff_mem]
  rcases List.mem_cons.1 hl with rfl | hl
  · exact hknown.1
  · exact List.mem_singleton.1 hl ▸ hknown.2

/-- The intervals contradict exactly the claims that are not true. -/
theorem violation?_eq_none_iff (hdiffer : c.event ≠ c.other) :
    c.violation? rs = none ↔ c.Truthful rs := by
  unfold Claim.violation?
  rw [missing_eq_nil hknown, ← relation_mem_computed_iff hlabels hknown]
  simp [hdiffer]

end Known

/-! ## Claims about one pair -/

/-- Every pair has one relation, that of a function. -/
def Follows (f : String × String → Relation)
    (t : Table (String × String) (List Relation)) : Prop :=
  ∀ e ∈ t.entries, e.2 = [f e.1]

theorem claimed_follows {f : String × String → Relation}
    (h : ∀ c ∈ cs, c.ordered.relation = f (c.ordered.event, c.ordered.other)) :
    Follows f (claimed cs) := by
  unfold claimed
  refine List.foldlRecOn (motive := Follows f) cs _
    (fun e he => absurd he List.not_mem_nil) fun t ht c hc e he => ?_
  rcases Table.mem_of_mem_insert he with he | rfl
  · exact ht e he
  · cases hget : t.get? (c.ordered.event, c.ordered.other) with
    | none => simp [h c hc]
    | some rels =>
      have hrels : rels = [f (c.ordered.event, c.ordered.other)] := ht _ (Table.mem_of_find hget)
      simp [hrels, h c hc]

theorem conflicts_eq_nil {f : String × String → Relation}
    (h : ∀ c ∈ cs, c.ordered.relation = f (c.ordered.event, c.ordered.other)) :
    conflicts cs = [] := by
  unfold conflicts
  refine List.filterMap_eq_nil_iff.2 fun e he => ?_
  rw [claimed_follows h e he]
  rfl

/-! ## Claims that the intervals bear out -/

theorem mem_named {l : String} : (∃ r ∈ named rs cs, r.label = l) ↔
    l ∈ rs.map Record.label ∧ ∃ c ∈ cs, c.event = l ∨ c.other = l := by
  unfold named
  simp only [List.mem_filter, List.any_eq_true, Bool.or_eq_true, decide_eq_true_eq, List.mem_map]
  constructor
  · rintro ⟨r, ⟨hr, c, hc, hnames⟩, rfl⟩
    exact ⟨⟨r, hr, rfl⟩, c, hc, hnames⟩
  · rintro ⟨⟨r, hr, rfl⟩, c, hc, hnames⟩
    exact ⟨r, ⟨hr, c, hc, hnames⟩, rfl⟩

section Borne

variable (hlabels : (rs.map Record.label).Nodup)
  (hknown : ∀ c ∈ cs, c.event ∈ rs.map Record.label ∧ c.other ∈ rs.map Record.label)

include hlabels hknown

/-- The ends of the intervals of a claim are ends of records that claims name. -/
theorem ends_subset (hc : c ∈ cs) :
    (intervalOf rs c.event).ends (intervalOf rs c.other) ⊆ endsOf (named rs cs) := by
  obtain ⟨r, hr, hevent⟩ := mem_named.2 ⟨(hknown c hc).1, c, hc, .inl rfl⟩
  obtain ⟨r', hr', hother⟩ := mem_named.2 ⟨(hknown c hc).2, c, hc, .inr rfl⟩
  rw [← hevent, ← hother, intervalOf_label hlabels (List.mem_filter.1 hr).1,
    intervalOf_label hlabels (List.mem_filter.1 hr').1]
  intro t ht
  unfold endsOf
  simp only [Interval.ends, Record.interval, List.mem_cons, List.not_mem_nil, or_false] at ht
  rcases ht with rfl | rfl | rfl | rfl
  · exact List.mem_flatMap.2 ⟨r, hr, by simp⟩
  · exact List.mem_flatMap.2 ⟨r, hr, by simp⟩
  · exact List.mem_flatMap.2 ⟨r', hr', by simp⟩
  · exact List.mem_flatMap.2 ⟨r', hr', by simp⟩

variable (hends : ∀ r ∈ rs, ¬ r.stop < r.start) (hline : Aligned (endsOf (named rs cs)))

include hends hline

/-- The records of a claim lie the other way round as the inverse says. -/
theorem relationOf_swap (hc : c ∈ cs) :
    relationOf rs (c.other, c.event) = (relationOf rs (c.event, c.other)).inverse :=
  Relation.between_inverse (hline.mono (ends_subset hlabels hknown hc))
    (intervalOf_ends hends c.event) (intervalOf_ends hends c.other)

/-- A claim that the intervals bear out is borne out in the order of its labels. -/
theorem relation_ordered (hc : c ∈ cs) (h : c.relation = relationOf rs (c.event, c.other)) :
    c.ordered.relation = relationOf rs (c.ordered.event, c.ordered.other) := by
  unfold Claim.ordered
  split
  · exact h
  · rw [relationOf_swap hlabels hknown hends hline hc, ← h]

/-- The event that a true claim puts before another starts sooner. -/
theorem start_lt_of_precedence (hc : c ∈ cs) (h : c.relation = relationOf rs (c.event, c.other))
    {e : Precedence.Edge} (he : c.precedence? = some e) :
    (intervalOf rs e.1).start < (intervalOf rs e.2).start := by
  have hevent := intervalOf_ends hends c.event
  have hother := intervalOf_ends hends c.other
  have hpair := hline.mono (ends_subset hlabels hknown hc)
  have hback : relationOf rs (c.other, c.event) = c.relation.inverse := by
    rw [relationOf_swap hlabels hknown hends hline hc, h]
  have hsooner : relationOf rs (c.event, c.other) = .before ∨
      relationOf rs (c.event, c.other) = .meets →
        (intervalOf rs c.event).start < (intervalOf rs c.other).start :=
    Relation.start_lt_of_between hpair hevent hother
  have hlater : relationOf rs (c.other, c.event) = .before ∨
      relationOf rs (c.other, c.event) = .meets →
        (intervalOf rs c.other).start < (intervalOf rs c.event).start :=
    Relation.start_lt_of_between (Relation.aligned_swap hpair) hother hevent
  unfold Claim.precedence? at he
  cases hrel : c.relation <;> rw [hrel] at he h hback <;> cases he
  case before => exact hsooner (.inl h.symm)
  case meets => exact hsooner (.inr h.symm)
  case after => exact hlater (.inl hback)
  case metBy => exact hlater (.inr hback)

/-- True claims do not put events before each other in a circle: numbers for the moments grow along
every claim. -/
theorem cycle?_of_truthful (h : ∀ c ∈ cs, c.relation = relationOf rs (c.event, c.other)) :
    Precedence.cycle? (cs.filterMap Claim.precedence?) = none := by
  obtain ⟨rank, hrank⟩ := hline.exists_scale
  refine Precedence.cycle?_eq_none (fun l => rank (intervalOf rs l).start) fun e he => ?_
  obtain ⟨c, hc, he⟩ := List.mem_filterMap.1 he
  have hlt := start_lt_of_precedence hlabels hknown hends hline hc (h c hc) he
  obtain ⟨⟨hevent, -⟩, hother, -⟩ :=
    Relation.mem_ends (intervalOf rs c.event) (intervalOf rs c.other)
  have hscale := hrank.mono (ends_subset hlabels hknown hc)
  unfold Claim.precedence? at he
  split at he <;> cases he
  · exact (hscale.lt_iff _ hevent _ hother).1 hlt
  · exact (hscale.lt_iff _ hevent _ hother).1 hlt
  · exact (hscale.lt_iff _ hother _ hevent).1 hlt
  · exact (hscale.lt_iff _ hother _ hevent).1 hlt

end Borne

/-! ## Records of what is read -/

/-- The ends of a record are at fixed distances from universal time. -/
def Record.IsFixed (r : Record) : Prop := r.start.zone.isFixed = true ∧ r.stop.zone.isFixed = true

theorem aligned_of_isFixed (h : ∀ r ∈ rs, r.IsFixed) : Aligned (endsOf rs) := by
  refine Instant.aligned_of_isFixed fun t ht => ?_
  obtain ⟨r, hr, ht⟩ := List.mem_flatMap.1 ht
  rcases List.mem_cons.1 ht with rfl | ht
  · exact (h r hr).1
  · exact List.mem_singleton.1 ht ▸ (h r hr).2

/-- A fact that is read starts at a fixed distance. -/
theorem Fact.isFixed_of_reader {v : Value} {f : Fact} (h : reader v = .ok f) :
    f.start.zone.isFixed = true := by
  obtain ⟨fields, -, hread⟩ := Fields.exists_of_reader h
  obtain ⟨_, _, hatom, -, rfl⟩ := Fields.exists_of_seq hread
  obtain ⟨_, _, hduration, -, rfl⟩ := Fields.exists_of_seq hatom
  obtain ⟨_, _, hlabel, -, rfl⟩ := Fields.exists_of_seq hduration
  obtain ⟨_, start, hmap, hstart, rfl⟩ := Fields.exists_of_seq hlabel
  obtain ⟨label, -, rfl⟩ := Fields.exists_of_map hmap
  obtain ⟨_, v, -, hv⟩ := Fields.exists_of_required hstart
  exact Instant.isFixed_of_reader hv

section Read

variable {s : Store} {u : Bool} {window : Option Window} {fs : List Fact}
  (hstarts : ∀ f ∈ fs, f.start.zone.isFixed = true)

/-- The end of a fact is its start that was moved. -/
theorem Fact.isFixed_of_stop {f : Fact} (hf : f.start.zone.isFixed = true) {t : Instant}
    (h : f.stop? = some (.ok t)) : t.zone.isFixed = true := by
  obtain ⟨d, -, hd⟩ := Option.map_eq_some_iff.1 h
  exact Instant.isFixed_of_shift hd hf

theorem isFixed_of_recordOf {reference : Instant} (hreference : reference.zone.isFixed = true)
    {f : Fact} (hf : f.start.zone.isFixed = true) {y : Option Record × List Warning}
    (h : recordOf s u window reference f = .ok y) {r : Record} (hr : y.1 = some r) : r.IsFixed := by
  rw [recordOf_eq] at h
  obtain ⟨stop, hstop, h⟩ := bind_eq_ok h
  have hfixed : stop.zone.isFixed = true := by
    cases hx : f.stop? with
    | none =>
      rw [hx] at hstop
      cases hstop
      exact Instant.isFixed_later hf hreference
    | some x =>
      rw [hx] at hstop
      cases (show x = .ok stop from hstop)
      exact Fact.isFixed_of_stop hf hx
  obtain ⟨excluded, -, h⟩ := bind_eq_ok h
  split at h
  · cases h
    cases hr
  · obtain ⟨confidence, -, h⟩ := bind_eq_ok h
    cases h
    cases hr
    exact ⟨hf, hfixed⟩

include hstarts

theorem isFixed_of_latest {t : Instant} (h : latest fs = .ok (some t)) : t.zone.isFixed = true := by
  obtain ⟨stops, hstops, h⟩ := bind_eq_ok h
  have hall : ∀ t' ∈ fs.map Fact.start ++ stops, t'.zone.isFixed = true := by
    intro t' ht'
    rcases List.mem_append.1 ht' with ht' | ht'
    · obtain ⟨f, hf, rfl⟩ := List.mem_map.1 ht'
      exact hstarts f hf
    · obtain ⟨x, hx, hxt⟩ := exists_of_mem_forall₂ (forall₂_of_mapM hstops) ht'
      obtain ⟨f, hf, hstop⟩ := List.mem_filterMap.1 hx
      exact Fact.isFixed_of_stop (hstarts f hf) (hstop.trans (congrArg some hxt))
  split at h
  · cases h
  · next first rest heq =>
    rw [heq] at hall
    cases h
    exact List.foldlRecOn (motive := fun t : Instant => t.zone.isFixed = true) rest _
      (hall first List.mem_cons_self) fun t ht t' ht' =>
        Instant.isFixed_later ht (hall t' (List.mem_cons_of_mem _ ht'))

theorem isFixed_of_found {reference : Instant} (hreference : reference.zone.isFixed = true)
    {found : List (Option Record × List Warning)}
    (h : fs.mapM (recordOf s u window reference) = .ok found) :
    ∀ r ∈ found.filterMap Prod.fst, r.IsFixed := by
  intro r hr
  obtain ⟨y, hy, hyr⟩ := List.mem_filterMap.1 hr
  obtain ⟨f, hf, hrecord⟩ := exists_of_mem_forall₂ (forall₂_of_mapM h) hy
  exact isFixed_of_recordOf hreference (hstarts f hf) hrecord hyr

/-- Facts that start at fixed distances have records on one line, with regard to a reference time at
a fixed distance or to the latest of their own. -/
theorem aligned_recordsOf {reference : Option Instant}
    (hreference : ∀ t ∈ reference, t.zone.isFixed = true) {ws : List Warning}
    (h : recordsOf s u window reference fs = .ok (rs, ws)) : Aligned (endsOf rs) := by
  refine aligned_of_isFixed ?_
  unfold recordsOf at h
  cases reference with
  | some t =>
    obtain ⟨now, hnow, h⟩ := bind_eq_ok h
    cases hnow
    obtain ⟨found, hfound, h⟩ := bind_eq_ok h
    cases h
    exact isFixed_of_found hstarts (hreference t rfl) hfound
  | none =>
    obtain ⟨now, hnow, h⟩ := bind_eq_ok h
    cases now with
    | none =>
      cases h
      exact fun r hr => absurd hr List.not_mem_nil
    | some t =>
      obtain ⟨found, hfound, h⟩ := bind_eq_ok h
      cases h
      exact isFixed_of_found hstarts (isFixed_of_latest hstarts hnow) hfound

omit hstarts in
/-- The records of facts that are read are on one line, with regard to a reference time that is read
or to the latest of the facts. -/
theorem aligned_of_read {reference : Option Instant}
    (hfacts : ∀ f ∈ fs, ∃ v, Fact.reader v = .ok f)
    (hreference : ∀ t ∈ reference, ∃ v, Instant.reader v = .ok t) {ws : List Warning}
    (h : recordsOf s u window reference fs = .ok (rs, ws)) : Aligned (endsOf rs) := by
  refine aligned_recordsOf (fun f hf => ?_) (fun t ht => ?_) h
  · obtain ⟨v, hv⟩ := hfacts f hf
    exact Fact.isFixed_of_reader hv
  · obtain ⟨v, hv⟩ := hreference t ht
    exact Instant.isFixed_of_reader hv

end Read

/-! ## All three checks -/

namespace Storm

open Relation.Autumn

/-- A fact of full confidence that lasts from one moment to another. -/
def record (label : String) (start stop : Instant) : Record := ⟨label, start, stop, false, 1.0⟩

/-- The facts. -/
def records : List Record :=
  [record "storm" (here 60) (here 240), record "flash" (universal (-60)) (universal (-60)),
    record "rain" (universal 180) (here 300)]

/-- What is claimed of them. -/
def claims : List Claim :=
  [⟨"storm", "flash", .startedBy⟩, ⟨"flash", "storm", .starts⟩, ⟨"rain", "storm", .metBy⟩,
    ⟨"flash", "rain", .before⟩]

end Storm

end Credence.Temporal
