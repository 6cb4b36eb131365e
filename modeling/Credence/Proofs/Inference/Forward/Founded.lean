import Credence.Inference.Forward
import Credence.Proofs.Inference.Derivation
import Credence.Proofs.Store.Growth
import Credence.Proofs.Store.Solutions
/-!
# What a firing rests on

A statement is founded on the facts of a run's first copy by rules, and by the usual
truth value: storing a reported conclusion stores the parts of it that are missing,
and those count as facts from then on. A firing over founded atoms is founded.
-/

namespace Credence

open Number Pattern

/-! ## The truth of a firing -/

namespace Truth

theorem confidence_foldl (ts : List Truth) (u : Truth) :
    (ts.foldl (fun acc t => ⟨acc.strength * t.strength, min acc.confidence t.confidence⟩)
      u).confidence = (ts.map confidence).foldl min u.confidence := by
  induction ts generalizing u with
  | nil => rfl
  | cons t ts ih => exact ih _

theorem strength_foldl (ts : List Truth) (u : Truth) :
    (ts.foldl (fun acc t => ⟨acc.strength * t.strength, min acc.confidence t.confidence⟩)
      u).strength = (ts.map strength).foldl (· * ·) u.strength := by
  induction ts generalizing u with
  | nil => rfl
  | cons t ts ih => exact ih _

theorem isValid_foldl {ts : List Truth} (hts : ∀ t ∈ ts, t.IsValid) {u : Truth} (hu : u.IsValid) :
    (ts.foldl (fun acc t => ⟨acc.strength * t.strength, min acc.confidence t.confidence⟩)
      u).IsValid := by
  induction ts generalizing u with
  | nil => exact hu
  | cons t ts ih =>
    obtain ⟨ht, hts⟩ := List.forall_mem_cons.1 hts
    exact ih hts ⟨(inUnit_mul hu.strength ht.strength).1, inUnit_min hu.confidence ht.confidence⟩

/-- A conjunction is as well supported as its least supported part. -/
theorem confidence_conjoin {ts : List Truth} (hts : ∀ t ∈ ts, t.IsValid) (hne : ts ≠ []) :
    (conjoin ts).confidence = Proof.least (ts.map confidence) := by
  unfold conjoin
  rw [confidence_foldl]
  cases ts with
  | nil => exact absurd rfl hne
  | cons t ts =>
    show (ts.map confidence).foldl min (min 1.0 t.confidence) = _
    rw [min_one (hts t (List.mem_cons_self ..)).confidence]
    rfl

theorem isValid_conjoin {ts : List Truth} (hts : ∀ t ∈ ts, t.IsValid) : (conjoin ts).IsValid :=
  isValid_foldl hts ⟨inUnit_one, inUnit_one⟩

/-- A number that is taken for a part of a truth value is taken as it is. -/
theorem eq_toFloat_of_unit {label : String} {a : Scalar} {x : Float}
    (h : unit label a.toValue = .ok x) : x = a.toFloat := by
  cases a with
  | whole n =>
    unfold unit Scalar.toValue at h
    unfold Scalar.toFloat
    dsimp only at h ⊢
    cases hn : ofInt? n with
    | none =>
      rw [hn] at h
      cases h
    | some y =>
      rw [hn] at h
      dsimp only at h
      split at h
      · cases h
        rfl
      · cases h
  | real y =>
    unfold unit Scalar.toValue at h
    dsimp only at h
    split at h
    · cases h
      rfl
    · cases h
  | flag b => cases h

theorem of_unit {label : String} {a : Scalar} {x : Float}
    (h : (unit label a.toValue).mapError Error.truth = .ok x) :
    inUnit x = true ∧ x = a.toFloat := by
  cases hu : unit label a.toValue with
  | error e =>
    rw [hu] at h
    cases h
  | ok y =>
    rw [hu] at h
    cases h
    exact ⟨inUnit_of_unit hu, eq_toFloat_of_unit hu⟩

end Truth

namespace Forward

/-- What the confidence of an atom counts as. -/
def counted (params : Params) (c : Float) : Float := if params.useUncertainty then c else 1.0

/-- The confidence of a firing over atoms of these confidences. -/
def fired (params : Params) (r : Rule) (cs : List Float) : Float :=
  if params.useUncertainty then Proof.least cs * r.reliability.toFloat else r.reliability.toFloat

theorem fireTruth_ok {r : Rule} {ts : List Truth} {useUncertainty : Bool} {t : Truth}
    (h : fireTruth r ts useUncertainty = .ok t) : inUnit r.reliability.toFloat = true ∧
      t.strength = (Truth.conjoin ts).strength ∧ t.confidence =
        if useUncertainty then (Truth.conjoin ts).confidence * r.reliability.toFloat
        else r.reliability.toFloat := by
  unfold fireTruth at h
  cases useUncertainty with
  | true =>
    rw [if_pos rfl] at h
    obtain ⟨x, hx, rfl⟩ := map_eq_ok h
    obtain ⟨hunit, rfl⟩ := Truth.of_unit hx
    exact ⟨hunit, rfl, rfl⟩
  | false =>
    rw [if_neg Bool.false_ne_true] at h
    obtain ⟨x, hx, rfl⟩ := map_eq_ok h
    obtain ⟨hunit, rfl⟩ := Truth.of_unit hx
    exact ⟨hunit, rfl, rfl⟩

theorem isValid_of_fireTruth {r : Rule} {ts : List Truth} (hts : ∀ t ∈ ts, t.IsValid)
    {useUncertainty : Bool} {t : Truth} (h : fireTruth r ts useUncertainty = .ok t) : t.IsValid := by
  obtain ⟨hunit, hs, hc⟩ := fireTruth_ok h
  have hvalid := Truth.isValid_conjoin hts
  refine ⟨hs ▸ hvalid.strength, ?_⟩
  rw [hc]
  split
  · exact (inUnit_mul hvalid.confidence hunit).1
  · exact hunit

theorem of_fireTruth {r : Rule} {params : Params} {ts : List Truth} (hts : ∀ t ∈ ts, t.IsValid)
    (hne : ts ≠ []) {t : Truth} (h : fireTruth r ts params.useUncertainty = .ok t) :
    t.IsValid ∧ t.confidence = fired params r (ts.map Truth.confidence) := by
  obtain ⟨_, _, hc⟩ := fireTruth_ok h
  refine ⟨isValid_of_fireTruth hts h, ?_⟩
  rw [hc, Truth.confidence_conjoin hts hne]
  rfl

/-! ## Founded statements -/

/-- Whether a tree has a confidence by the facts of a store, the enabled ones of some rules, and
the parts that storing what is reported brings in. -/
inductive Founded (facts : Store) (params : Params) (rules : List Rule)
    (reported : Pattern → Float → Prop) : Pattern → Float → Prop
  | fact {a : Atom} (ha : a ∈ facts.atoms) {t : Pattern} (ht : facts.toPattern a.id = .ok t) :
    Founded facts params rules reported t (counted params a.truth.confidence)
  | part {p q : Pattern} {c : Float} (h : Founded facts params rules reported p c)
    (hp : reported p c) (hq : Part q p)
    (hnew : facts.Distinct → ∀ id ∈ facts.ids, facts.toPattern id ≠ .ok q) :
    Founded facts params rules reported q (counted params Truth.default.confidence)
  | rule {r : Rule} (hr : r ∈ rules) (he : r.enabled = true) {σ : Valuation}
    (hσ : ∀ v, (σ v).isGround = true) {cs : List Float} (hcs : cs.length = r.premises.length)
    (h : ∀ pc ∈ r.premises.zip cs, Founded facts params rules reported (pc.1.subst σ) pc.2) :
    Founded facts params rules reported (r.conclusion.subst σ) (fired params r cs)

variable {copy : Store} {params : Params} {rules : List Rule}
  {reported reported' : Pattern → Float → Prop}

/-- The more is reported, the more is founded. -/
theorem Founded.mono (hr : ∀ p c, reported p c → reported' p c) {p : Pattern} {c : Float}
    (h : Founded copy params rules reported p c) : Founded copy params rules reported' p c := by
  induction h with
  | fact ha ht => exact .fact ha ht
  | part _ hp hq hnew ih => exact .part ih (hr _ _ hp) hq hnew
  | rule hmem he hσ hcs _ ih => exact .rule hmem he hσ hcs ih

/-- Whether every atom of a store is founded with the confidence that counts. -/
def Held (copy : Store) (params : Params) (rules : List Rule)
    (reported : Pattern → Float → Prop) (facts : Store) : Prop :=
  ∀ a ∈ facts.atoms, ∃ c, Founded copy params rules reported (facts.treeOf a.id) c ∧
    (params.useUncertainty = true → c = a.truth.confidence)

/-- Atoms in the places of patterns have confidences there. -/
theorem exists_confidences {facts : Store} (hheld : Held copy params rules reported facts)
    {as : List Atom} (has : ∀ a ∈ as, a ∈ facts.atoms) {σ : Valuation} {ps : List Pattern}
    (htrees : ps.map (subst σ) = as.map fun a => facts.treeOf a.id) :
    ∃ cs : List Float, cs.length = ps.length ∧
      (∀ pc ∈ ps.zip cs, Founded copy params rules reported (pc.1.subst σ) pc.2) ∧
      (params.useUncertainty = true → cs = as.map fun a => a.truth.confidence) := by
  induction as generalizing ps with
  | nil =>
    obtain rfl := List.map_eq_nil_iff.1 htrees
    exact ⟨[], rfl, List.forall_mem_nil _, fun _ => rfl⟩
  | cons a as ih =>
    cases ps with
    | nil => cases htrees
    | cons p ps =>
      obtain ⟨htree, htrees⟩ := List.cons.inj htrees
      obtain ⟨ha, has⟩ := List.forall_mem_cons.1 has
      obtain ⟨c, hc, hconf⟩ := hheld a ha
      obtain ⟨cs, hlen, hcs, hconfs⟩ := ih has htrees
      refine ⟨c :: cs, congrArg Nat.succ hlen, List.forall_mem_cons.2 ⟨?_, hcs⟩, fun hu => ?_⟩
      · rw [htree]
        exact hc
      · rw [List.map_cons, hconf hu, hconfs hu]

/-- The atoms of identifiers that are stored. -/
theorem filterMap_get? {facts : Store} (h : facts.Inv) {ids : List AtomId}
    (hids : ∀ id ∈ ids, id ∈ facts.ids) :
    (∀ a ∈ ids.filterMap facts.get?, a ∈ facts.atoms) ∧
      (ids.filterMap facts.get?).map Atom.id = ids := by
  induction ids with
  | nil => exact ⟨List.forall_mem_nil _, rfl⟩
  | cons id ids ih =>
    obtain ⟨hid, hrest⟩ := List.forall_mem_cons.1 hids
    obtain ⟨a, ha, rfl⟩ := Store.mem_ids.1 hid
    obtain ⟨hmem, hmap⟩ := ih hrest
    rw [List.filterMap_cons_some (Store.get?_eq_some h ha)]
    exact ⟨List.forall_mem_cons.2 ⟨ha, hmem⟩, congrArg (a.id :: ·) hmap⟩

/-- Read as trees, solved premises are the trees of the atoms that a firing consumes. -/
theorem subst_premises {facts : Store} (h : facts.Inv) (hp : facts.Plain) {ps : List Pattern}
    (hk : ∀ p ∈ ps, p.WellKinded) {sol : Solution} (hs : facts.Solved ps .empty sol) :
    ps.map (subst (facts.treesOf sol.bindings)) =
      (sol.atomIds.filterMap facts.get?).map fun a => facts.treeOf a.id := by
  have hids := (filterMap_get? h hs.stored).2
  calc ps.map (subst (facts.treesOf sol.bindings))
      = sol.atomIds.map facts.treeOf := hs.subst_eq h hp hk
    _ = ((sol.atomIds.filterMap facts.get?).map Atom.id).map facts.treeOf := by rw [hids]
    _ = (sol.atomIds.filterMap facts.get?).map fun a => facts.treeOf a.id := List.map_map

/-- A rule that fires over founded atoms gives a founded statement. -/
theorem founded_of_firing {facts : Store} (h : facts.Inv) (hp : facts.Plain)
    (hheld : Held copy params rules reported facts) {r : Rule} (hr : r ∈ rules)
    (he : r.enabled = true) (hc : r.Checked) (hk : ∀ p ∈ r.premises, p.WellKinded)
    {sol : Solution} (hs : facts.Solved r.premises .empty sol) {q : Pattern}
    (hq : facts.instantiate r.conclusion sol.bindings = .ok q) {t : Truth}
    (ht : fireTruth r ((sol.atomIds.filterMap facts.get?).map Atom.truth) params.useUncertainty =
      .ok t) :
    t.IsValid ∧ Founded copy params rules reported q t.confidence := by
  have hatoms := (filterMap_get? h hs.stored).1
  have htrees := subst_premises h hp hk hs
  -- The bindings leave no variable of the rule open, so they can be taken for a ground instance.
  obtain ⟨τ, hτ, hconclusion, hpremises⟩ := hc.ground_instance (hs.isGround h hp hk)
  obtain ⟨cs, hlen, hcs, hconfs⟩ := exists_confidences hheld hatoms (hpremises.trans htrees)
  have hvalid : ∀ u ∈ (sol.atomIds.filterMap facts.get?).map Atom.truth, u.IsValid := by
    intro u hu
    obtain ⟨a, ha, rfl⟩ := List.mem_map.1 hu
    exact h.formed.valid a (hatoms a ha)
  have hne : (sol.atomIds.filterMap facts.get?).map Atom.truth ≠ [] := by
    intro hnil
    rw [List.map_eq_nil_iff.1 hnil] at htrees
    exact hc.premises (List.map_eq_nil_iff.1 htrees)
  obtain ⟨hvalid, hconf⟩ := of_fireTruth hvalid hne ht
  have hfired : t.confidence = fired params r cs := by
    rw [hconf]
    unfold fired
    split
    · next hu =>
      rw [hconfs hu, List.map_map]
      rfl
    · rfl
  refine ⟨hvalid, ?_⟩
  rw [hfired, Store.eq_of_instantiate h hp hs.holds hq, ← hconclusion]
  exact .rule hr he hτ hlen hcs

end Forward

end Credence
