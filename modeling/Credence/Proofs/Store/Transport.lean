import Credence.Proofs.Inference.Level
import Credence.Proofs.Store.Solutions
import Mathlib.Data.List.Perm.Basic
/-!
# Solutions in another store

A map of identifiers carries a store into another if every atom goes to one of the
same form over the mapped children and of the same confidence. What a pattern denotes
is carried along, so every solution has its like in the other store, also if the
patterns are solved in another order there: it binds the mapped atoms, makes the same
instances and consumes equal confidences.
-/

namespace Credence

open Pattern

/-- A form over other children. -/
def Form.rename (f : AtomId → AtomId) : Form → Form
  | .node k name => .node k name
  | .link k out => .link k (out.map f)

theorem Form.kind_rename (f : AtomId → AtomId) (form : Form) :
    (form.rename f).kind = form.kind := by
  cases form <;> rfl

theorem Form.outgoing_rename (f : AtomId → AtomId) (form : Form) :
    (form.rename f).outgoing = form.outgoing.map f := by
  cases form <;> rfl

/-- Following bindings depends on what is bound and on the number of rounds. -/
theorem Substitution.follow_congr {θ θ' : Substitution} (h : ∀ v, θ.get? v = θ'.get? v) (n : Nat)
    (p : Pattern) : θ.follow n p = θ'.follow n p := by
  induction n generalizing p with
  | zero => rfl
  | succ n ih =>
    unfold follow
    refine subst_congr fun v _ => ?_
    rw [h v]
    cases θ'.get? v with
    | some q => exact ih q
    | none => rfl

namespace Store

variable {s s' : Store} {f : AtomId → AtomId}

/-- Whether a map of identifiers gives for every atom one of its form and confidence. -/
def Carries (f : AtomId → AtomId) (s s' : Store) : Prop :=
  ∀ a ∈ s.atoms, ∃ a' ∈ s'.atoms, a'.id = f a.id ∧ a'.form = a.form.rename f ∧
    Level a.truth.confidence a'.truth.confidence

/-- Whether every node has a name that can be read back. -/
def Readable (s : Store) : Prop :=
  ∀ a ∈ s.atoms, ∀ k name, a.form = .node k name → ∃ p, patternOfNode k name = .ok p

/-- In a readable store every atom has a tree. -/
theorem exists_toPattern (h : s.Inv) (hr : s.Readable) {id : AtomId} (hid : id ∈ s.ids) :
    ∃ p, s.toPattern id = .ok p := by
  refine h.induct (P := fun id => ∃ p, s.toPattern id = .ok p) (fun a ha k name hf => ?_)
    (fun a ha k out hf hout => ?_) hid
  · rw [toPattern_node h ha hf]
    exact hr a ha k name hf
  · obtain ⟨ps, hps⟩ := exists_mapM_ok fun ref href => (hout ref href).2
    rw [toPattern_link h ha hf, hps]
    exact ⟨_, rfl⟩

/-! ## Atoms -/

theorem Carries.mem_ids (m : Carries f s s') {id : AtomId} (hid : id ∈ s.ids) : f id ∈ s'.ids := by
  obtain ⟨a, ha, rfl⟩ := Store.mem_ids.1 hid
  obtain ⟨a', ha', hid', _⟩ := m a ha
  exact Store.mem_ids.2 ⟨a', ha', hid'⟩

/-- The atom that an atom is carried to. -/
theorem Carries.get? (m : Carries f s s') (h : s.Inv) (h' : s'.Inv) {id : AtomId} {a : Atom}
    (ha : s.get? id = some a) : ∃ a', s'.get? (f id) = some a' ∧ a'.form = a.form.rename f ∧
      Level a.truth.confidence a'.truth.confidence := by
  obtain ⟨hmem, rfl⟩ := (get?_some_iff h.formed.ascending).1 ha
  obtain ⟨a', ha', hid, hform, hlevel⟩ := m a hmem
  exact ⟨a', hid ▸ get?_eq_some h' ha', hform, hlevel⟩

/-- The tree of an atom is carried along as it is. -/
theorem Carries.toPattern_eq (m : Carries f s s') (h : s.Inv) (h' : s'.Inv) {id : AtomId}
    (hid : id ∈ s.ids) : s'.toPattern (f id) = s.toPattern id := by
  refine h.induct (P := fun id => s'.toPattern (f id) = s.toPattern id) (fun a ha k name hf => ?_)
    (fun a ha k out hf hout => ?_) hid
  · obtain ⟨a', ha', hid', hform, _⟩ := m a ha
    rw [hf] at hform
    rw [← hid', toPattern_node h' ha' hform, toPattern_node h ha hf]
  · obtain ⟨a', ha', hid', hform, _⟩ := m a ha
    rw [hf] at hform
    rw [← hid', toPattern_link h' ha' hform, toPattern_link h ha hf, List.mapM_map]
    exact congrArg _ (mapM_congr fun ref href => (hout ref href).2)

mutual

/-- What a pattern denotes is carried along with the bindings. -/
theorem Carries.denotes (m : Carries f s s') (h : s.Inv) (h' : s'.Inv) {b : Bindings} {p : Pattern}
    {id : AtomId} (hd : s.Denotes b p id) : s'.Denotes (b.map f) p (f id) := by
  cases p with
  | var v =>
    unfold Denotes at hd ⊢
    rw [Table.get?_map, hd]
    rfl
  | node k name =>
    unfold Denotes at hd ⊢
    obtain ⟨a, ha, hk, hn⟩ := hd
    obtain ⟨a', ha', hform, _⟩ := m.get? h h' ha
    refine ⟨a', ha', ?_, ?_⟩
    · unfold Atom.kind at hk ⊢
      rw [hform, Form.kind_rename, hk]
    · unfold Atom.name? at hn ⊢
      rw [hform]
      cases hf : a.form with
      | node l n =>
        rw [hf] at hn
        exact hn
      | link l out =>
        rw [hf] at hn
        cases hn
  | link k cs =>
    unfold Denotes at hd ⊢
    obtain ⟨a, ha, hk, hcs⟩ := hd
    obtain ⟨a', ha', hform, _⟩ := m.get? h h' ha
    refine ⟨a', ha', ?_, ?_⟩
    · unfold Atom.kind at hk ⊢
      rw [hform, Form.kind_rename, hk]
    · unfold Atom.outgoing at hcs ⊢
      rw [hform, Form.outgoing_rename]
      exact Carries.denoteEach m h h' hcs

theorem Carries.denoteEach (m : Carries f s s') (h : s.Inv) (h' : s'.Inv) {b : Bindings}
    {cs : List Pattern} {ids : List AtomId} (hd : s.DenoteEach b cs ids) :
    s'.DenoteEach (b.map f) cs (ids.map f) := by
  cases cs with
  | nil =>
    cases ids with
    | nil => trivial
    | cons => exact absurd hd (by simp [DenoteEach])
  | cons c cs =>
    cases ids with
    | nil => exact absurd hd (by simp [DenoteEach])
    | cons id ids =>
      unfold DenoteEach at hd
      exact ⟨Carries.denotes m h h' hd.1, Carries.denoteEach m h h' hd.2⟩

end

/-! ## Solutions -/

theorem denoteEach_iff {b : Bindings} {cs : List Pattern} {ids : List AtomId} :
    s.DenoteEach b cs ids ↔ List.Forall₂ (s.Denotes b) cs ids := by
  induction cs generalizing ids with
  | nil => cases ids <;> simp [DenoteEach]
  | cons c cs ih => cases ids <;> simp [DenoteEach, ih]

/-- Patterns in another order denote the same atoms in that order. -/
theorem DenoteEach.perm {b : Bindings} {cs cs' : List Pattern} (hp : cs'.Perm cs)
    {ids : List AtomId} (hd : s.DenoteEach b cs ids) :
    ∃ ids', ids'.Perm ids ∧ s.DenoteEach b cs' ids' := by
  obtain ⟨ids', hall, hperm⟩ := List.perm_comp_forall₂ hp (denoteEach_iff.1 hd)
  exact ⟨ids', hperm, denoteEach_iff.2 hall⟩

theorem mem_occurrencesList_perm {cs cs' : List Pattern} (hp : cs'.Perm cs) (v : String) :
    v ∈ occurrencesList cs' ↔ v ∈ occurrencesList cs := by
  simp only [mem_occurrencesList, hp.mem_iff]

/-- What the like of a solution is in another store. -/
structure Like (f : AtomId → AtomId) (sol sol' : Solution) : Prop where
  atoms : sol'.atomIds.Perm (sol.atomIds.map f)
  bound : ∀ v, sol'.bindings.get? v = (sol.bindings.get? v).map f
  size : sol'.bindings.size = sol.bindings.size

/-- Every solution has its like, in whatever order the patterns are solved. -/
theorem Carries.exists_like (m : Carries f s s') (h : s.Inv) (h' : s'.Inv) {ps ps' : List Pattern}
    (hp : ps'.Perm ps) {sols sols' : List Solution} (hrun : s.solutions ps .empty = .ok sols)
    (hrun' : s'.solutions ps' .empty = .ok sols') {sol : Solution} (hsol : sol ∈ sols) :
    ∃ sol' ∈ sols', Like f sol sol' := by
  have hsolved := solved_of_solutions h (holds_empty s) hrun hsol
  obtain ⟨hnodup, hdomain⟩ :=
    domain_of_solutions h (holds_empty s) hrun hsol (List.nodup_nil (α := String))
  obtain ⟨ids, hperm, hd⟩ := (m.denoteEach h h' hsolved.denotes).perm hp
  have hids : ∀ id ∈ ids, id ∈ s'.ids := by
    intro id hid
    obtain ⟨x, hx, rfl⟩ := List.mem_map.1 (hperm.mem_iff.1 hid)
    exact m.mem_ids (hsolved.stored x hx)
  have hempty : Bindings.Extends .empty (sol.bindings.map f) := nofun
  obtain ⟨sol', hsol', rfl, hext⟩ :=
    exists_mem_solutions h' (holds_empty s') hempty hids hd hrun'
  obtain ⟨hnodup', hdomain'⟩ :=
    domain_of_solutions h' (holds_empty s') hrun' hsol' (List.nodup_nil (α := String))
  -- Both bind exactly the variables of the patterns, and these do not depend on the order.
  have hcontains : ∀ v, sol'.bindings.contains v = true ↔ sol.bindings.contains v = true := by
    intro v
    rw [hdomain' v, hdomain v, mem_occurrencesList_perm hp]
  refine ⟨sol', hsol', hperm, fun v => ?_, Table.size_eq_of_contains hnodup' hnodup hcontains⟩
  cases hv : sol'.bindings.get? v with
  | some id =>
    rw [← Table.get?_map]
    exact (hext v id hv).symm
  | none =>
    cases hw : sol.bindings.get? v with
    | none => rfl
    | some id =>
      have hin := (hcontains v).2 (by unfold Table.contains; rw [hw]; rfl)
      unfold Table.contains at hin
      rw [hv] at hin
      cases hin

/-! ## Instances and confidences -/

/-- What is instantiated with a solution has a tree. -/
theorem exists_instantiate (h : s.Inv) (hr : s.Readable) {ps : List Pattern} {sols : List Solution}
    (hrun : s.solutions ps .empty = .ok sols) {sol : Solution} (hsol : sol ∈ sols) (p : Pattern) :
    ∃ q, s.instantiate p sol.bindings = .ok q := by
  have hholds := (solved_of_solutions h (holds_empty s) hrun hsol).holds
  have hnodup := (domain_of_solutions h (holds_empty s) hrun hsol List.nodup_nil).1
  have hread : ∀ e ∈ sol.bindings.entries,
      ∃ x, ((s.toPattern e.2).map fun p => (e.1, p)) = .ok x := by
    intro e he
    have hbound : sol.bindings.get? e.1 = some e.2 := Table.find_of_mem hnodup he
    obtain ⟨p, hp⟩ := exists_toPattern h hr (contains_iff.1 (hholds e.1 e.2 hbound))
    rw [hp]
    exact ⟨_, rfl⟩
  obtain ⟨es, hes⟩ := exists_mapM_ok hread
  unfold instantiate bindingTrees
  rw [hes]
  exact ⟨_, rfl⟩

theorem size_of_bindingTrees {b : Bindings} {θ : Substitution} (hrun : s.bindingTrees b = .ok θ) :
    θ.size = b.size := by
  obtain ⟨es, hes, rfl⟩ := map_eq_ok hrun
  exact (forall₂_of_mapM hes).length_eq.symm

/-- A solution and its like make the same instances. -/
theorem Carries.instantiate_eq (m : Carries f s s') (h : s.Inv) (h' : s'.Inv) {sol sol' : Solution}
    (hl : Like f sol sol') (hb : s.Holds sol.bindings) {p q q' : Pattern}
    (hq : s.instantiate p sol.bindings = .ok q) (hq' : s'.instantiate p sol'.bindings = .ok q') :
    q' = q := by
  obtain ⟨θ, hθ, rfl⟩ := map_eq_ok hq
  obtain ⟨θ', hθ', rfl⟩ := map_eq_ok hq'
  unfold Substitution.apply
  rw [size_of_bindingTrees hθ, size_of_bindingTrees hθ', hl.size]
  refine Substitution.follow_congr (fun v => ?_) _ p
  rw [get?_of_bindingTrees hθ, get?_of_bindingTrees hθ', hl.bound v]
  cases hv : sol.bindings.get? v with
  | none => rfl
  | some id =>
    refine congrArg some ?_
    unfold treeOf
    rw [m.toPattern_eq h h' (contains_iff.1 (hb v id hv))]

/-- The confidences of the atoms of a solution. -/
def confidences (s : Store) (ids : List AtomId) : List Float :=
  (ids.filterMap s.get?).map fun a => a.truth.confidence

theorem mem_confidences {ids : List AtomId} {c : Float} :
    c ∈ s.confidences ids ↔ ∃ id ∈ ids, ∃ a, s.get? id = some a ∧ a.truth.confidence = c := by
  simp only [confidences, List.mem_map, List.mem_filterMap]
  constructor
  · rintro ⟨a, ⟨id, hid, ha⟩, rfl⟩
    exact ⟨id, hid, a, ha, rfl⟩
  · rintro ⟨id, hid, a, ha, rfl⟩
    exact ⟨a, ⟨id, hid, ha⟩, rfl⟩

/-- A solution and its like consume equal confidences. -/
theorem Carries.confidences (m : Carries f s s') (h : s.Inv) (h' : s'.Inv) {ids ids' : List AtomId}
    (hp : ids'.Perm (ids.map f)) (hids : ∀ id ∈ ids, id ∈ s.ids) :
    (∀ c ∈ s.confidences ids, ∃ c' ∈ s'.confidences ids', Level c c') ∧
      ∀ c' ∈ s'.confidences ids', ∃ c ∈ s.confidences ids, Level c' c := by
  constructor
  · intro c hc
    obtain ⟨id, hid, a, ha, rfl⟩ := mem_confidences.1 hc
    obtain ⟨a', ha', _, hlevel⟩ := m.get? h h' ha
    exact ⟨_, mem_confidences.2 ⟨f id, hp.mem_iff.2 (List.mem_map_of_mem hid), a', ha', rfl⟩, hlevel⟩
  · intro c' hc'
    obtain ⟨id', hid', a', ha', rfl⟩ := mem_confidences.1 hc'
    obtain ⟨id, hid, rfl⟩ := List.mem_map.1 (hp.mem_iff.1 hid')
    obtain ⟨a, ha⟩ := Option.isSome_iff_exists.1 (contains_iff.2 (hids id hid))
    obtain ⟨a'', ha'', _, hlevel⟩ := m.get? h h' ha
    rw [ha'] at ha''
    cases ha''
    exact ⟨_, mem_confidences.2 ⟨id, hid, a, ha, rfl⟩, hlevel.symm⟩

end Store

end Credence
