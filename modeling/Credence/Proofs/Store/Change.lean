import Credence.Proofs.Except
import Credence.Proofs.Store.Invariant
import Credence.Store.Assert
import Mathlib.Logic.Relation
/-!
# Changes of a store

Whatever an operation does to a store, it does in two kinds of steps: it stores an
atom that fits under the next identifier, or it replaces a truth value. Both keep the
invariant, so every operation does, also when it fails half-way.
-/

namespace Credence.Store

/-! ## Storing an atom -/

/-- The store with one more atom under the next identifier. -/
def inserted (s : Store) (form : Form) (truth : Truth) (written : List Value) : Store :=
  { s.index ⟨s.nextId, form, truth, written⟩ with
    nextId := s.nextId + 1
    tally := { s.tally with atomsAdded := s.tally.atomsAdded + 1 } }

theorem tally_index (s : Store) (a : Atom) : (s.index a).tally = s.tally := by
  unfold index
  cases a.form <;> rfl

theorem atoms_inserted (s : Store) (form : Form) (truth : Truth) (written : List Value) :
    (s.inserted form truth written).atoms = s.atoms ++ [⟨s.nextId, form, truth, written⟩] :=
  atoms_index s _

theorem get?_inserted_or (s : Store) (form : Form) (truth : Truth) (written : List Value)
    (id : AtomId) : (s.inserted form truth written).get? id =
      (s.get? id).or (if s.nextId = id then some ⟨s.nextId, form, truth, written⟩ else none) := by
  unfold get?
  rw [atoms_inserted, List.find?_append, List.find?_singleton]
  simp only [decide_eq_true_eq]

theorem ids_inserted (s : Store) (form : Form) (truth : Truth) (written : List Value) :
    (s.inserted form truth written).ids = s.ids ++ [s.nextId] :=
  ids_index s _

theorem Indexed.congr {s s' : Store} (h : s.Indexed) (ha : s'.atoms = s.atoms)
    (hn : s'.byName = s.byName) (hk : s'.byKind = s.byKind) (hi : s'.incoming = s.incoming)
    (hs : s'.byStructure = s.byStructure) : s'.Indexed := by
  obtain ⟨h1, h2, h3, h4⟩ := h
  refine ⟨?_, ?_, ?_, ?_⟩
  · intro name
    have := h1 name
    unfold named idsWhere at *
    rw [hn, ha, this]
  · intro k
    have := h2 k
    unfold idsOf idsWhere at *
    rw [hk, ha, this]
  · intro id
    have := h3 id
    unfold linksOver idsWhere at *
    rw [hi, ha, this]
  · intro k out
    have := h4 k out
    unfold idsWhere at *
    rw [hs, ha, this]

/-- Storing an atom that fits, over atoms that are stored, keeps the invariant. -/
theorem Inv.inserted {s : Store} (h : s.Inv) {form : Form} {truth : Truth} (hf : form.Fits)
    (hr : ∀ ref ∈ form.outgoing, ref ∈ s.ids) (ht : truth.IsValid) (written : List Value) :
    (s.inserted form truth written).Inv := by
  obtain ⟨hx, ⟨hasc, hpos, hbelow, holder, hfits, hvalid⟩, hnext⟩ := h
  have hlt : ∀ id ∈ s.ids, id < s.nextId := by
    intro id hid
    obtain ⟨a, ha, rfl⟩ := mem_ids.1 hid
    exact hbelow a ha
  refine ⟨(hx.index _).congr rfl rfl rfl rfl rfl, ⟨?_, ?_, ?_, ?_, ?_, ?_⟩, Nat.succ_pos _⟩
  · rw [ids_inserted, List.pairwise_append]
    refine ⟨hasc, List.pairwise_singleton _ _, ?_⟩
    intro id hid n hn
    rw [List.mem_singleton.1 hn]
    exact hlt id hid
  -- Each of the other properties holds of the atoms there were and of the new one.
  all_goals
    rw [atoms_inserted]
    intro a ha
    rcases List.mem_append.1 ha with ha | ha
  · exact hpos a ha
  · obtain rfl := List.mem_singleton.1 ha
    exact hnext
  · exact Nat.lt_succ_of_lt (hbelow a ha)
  · obtain rfl := List.mem_singleton.1 ha
    exact Nat.lt_succ_self _
  · intro ref href
    obtain ⟨h1, h2⟩ := holder a ha ref href
    rw [ids_inserted]
    exact ⟨h1, List.mem_append_left _ h2⟩
  · obtain rfl := List.mem_singleton.1 ha
    intro ref href
    have hin := hr ref href
    rw [ids_inserted]
    exact ⟨hlt ref hin, List.mem_append_left _ hin⟩
  · exact hfits a ha
  · obtain rfl := List.mem_singleton.1 ha
    exact hf
  · exact hvalid a ha
  · obtain rfl := List.mem_singleton.1 ha
    exact ht

/-! ## Replacing a truth value -/

theorem atoms_retruth (s : Store) (id : AtomId) (t : Truth) :
    (s.retruth id t).atoms = s.atoms.map fun a => if a.id = id then { a with truth := t } else a :=
  rfl

/-- An atom after a change of truth has the same identifier and form as before. -/
theorem mem_retruth {s : Store} {id : AtomId} {t : Truth} {a : Atom}
    (h : a ∈ (s.retruth id t).atoms) :
    ∃ c ∈ s.atoms, a.id = c.id ∧ a.form = c.form ∧ (a.truth = c.truth ∨ a.truth = t) := by
  rw [atoms_retruth] at h
  obtain ⟨c, hc, rfl⟩ := List.mem_map.1 h
  by_cases he : c.id = id
  · exact ⟨c, hc, by simp [he]⟩
  · exact ⟨c, hc, by simp [he]⟩

theorem idsWhere_retruth (s : Store) (id : AtomId) (t : Truth) (test : Atom → Bool)
    (htest : ∀ a c : Atom, a.form = c.form → test a = test c) :
    (s.retruth id t).idsWhere test = s.idsWhere test := by
  unfold idsWhere
  rw [atoms_retruth]
  induction s.atoms with
  | nil => rfl
  | cons a as ih =>
    have h1 : test (if a.id = id then { a with truth := t } else a) = test a := by
      split
      · exact htest _ _ rfl
      · rfl
    have h2 : (if a.id = id then { a with truth := t } else a).id = a.id := by
      split <;> rfl
    rw [List.map_cons, List.filter_cons, List.filter_cons, h1]
    split
    · rw [List.map_cons, List.map_cons, ih, h2]
    · exact ih

theorem ids_retruth (s : Store) (id : AtomId) (t : Truth) : (s.retruth id t).ids = s.ids := by
  unfold ids
  rw [atoms_retruth, List.map_map]
  refine List.map_congr_left fun a _ => ?_
  dsimp only [Function.comp]
  split <;> rfl

theorem Indexed.retruth {s : Store} (h : s.Indexed) (id : AtomId) (t : Truth) :
    (s.retruth id t).Indexed where
  named_eq name := by
    rw [idsWhere_retruth s id t]
    · exact h.named_eq name
    · intro a c hac
      unfold Atom.name?
      rw [hac]
  idsOf_eq k := by
    rw [idsWhere_retruth s id t]
    · exact h.idsOf_eq k
    · intro a c hac
      unfold Atom.kind
      rw [hac]
  linksOver_eq ref := by
    rw [idsWhere_retruth s id t]
    · exact h.linksOver_eq ref
    · intro a c hac
      unfold Atom.outgoing
      rw [hac]
  structure_eq k out := by
    rw [idsWhere_retruth s id t]
    · exact h.structure_eq k out
    · intro a c hac
      rw [hac]

/-- Replacing a truth value by a valid one keeps the invariant. -/
theorem Inv.retruth {s : Store} (h : s.Inv) (id : AtomId) {t : Truth} (ht : t.IsValid) :
    (s.retruth id t).Inv := by
  obtain ⟨hx, ⟨hasc, hpos, hbelow, holder, hfits, hvalid⟩, hnext⟩ := h
  refine ⟨hx.retruth id t, ⟨?_, ?_, ?_, ?_, ?_, ?_⟩, hnext⟩
  · rw [ids_retruth]
    exact hasc
  all_goals
    intro a ha
    obtain ⟨c, hc, hid, hform, htruth⟩ := mem_retruth ha
  · rw [hid]
    exact hpos c hc
  · rw [hid]
    exact hbelow c hc
  · rw [ids_retruth, hid]
    unfold Atom.outgoing
    rw [hform]
    exact holder c hc
  · rw [hform]
    exact hfits c hc
  · rcases htruth with htruth | htruth <;> rw [htruth]
    · exact hvalid c hc
    · exact ht

/-! ## Steps -/

/-- Whether a written reference is the number of an atom. -/
def Refers (v : Value) (id : AtomId) : Prop :=
  ∃ w, Reference.ofValue v = .number (Int.ofNat id) w

theorem refers_of_find {s : Store} {v : Value} {id : AtomId} (h : s.find? (.ofValue v) = some id) :
    Refers v id := by
  unfold find? at h
  split at h
  · next n w hr =>
    split at h
    · cases h
      exact ⟨w, hr⟩
    · cases h
  · cases h

theorem refers_ints (ids : List AtomId) :
    List.Forall₂ Refers (ids.map fun id => .int (Int.ofNat id)) ids := by
  rw [List.forall₂_map_left_iff, List.forall₂_same]
  exact fun id _ => ⟨_, rfl⟩

/-- One step of an operation. -/
inductive Change : Store → Store → Prop
  | insert {s : Store} {form : Form} {truth : Truth} {written : List Value} (hf : form.Fits)
    (hr : ∀ ref ∈ form.outgoing, ref ∈ s.ids) (ht : truth.IsValid)
    (hw : List.Forall₂ Refers written form.outgoing) :
    Change s (s.inserted form truth written)
  | retruth {s : Store} (id : AtomId) {truth : Truth} (ht : truth.IsValid) :
    Change s (s.retruth id truth)

/-- Any number of steps. -/
abbrev Changes : Store → Store → Prop := Relation.ReflTransGen Change

theorem Change.inv {s s' : Store} (h : Change s s') (hs : s.Inv) : s'.Inv := by
  cases h with
  | insert hf hr ht hw => exact hs.inserted hf hr ht _
  | retruth id ht => exact hs.retruth id ht

theorem Changes.inv {s s' : Store} (h : Changes s s') (hs : s.Inv) : s'.Inv := by
  induction h with
  | refl => exact hs
  | tail _ h ih => exact h.inv ih

/-! ## What the operations do -/

section Run

variable {α β : Type}

theorem run_pure (s : Store) (a : α) : ((pure a : StoreM α)).run.run s = (.ok a, s) := rfl

theorem run_lift (s : Store) (x : Except Error α) :
    ((liftM x : StoreM α)).run.run s = (x, s) := by
  cases x <;> rfl

theorem run_bind (s : Store) (x : StoreM α) (f : α → StoreM β) :
    (x >>= f).run.run s =
      match x.run.run s with
      | (.ok a, s') => (f a).run.run s'
      | (.error e, s') => (.error e, s') := by
  show (ExceptT.bindCont f (x.run.run s).1).run (x.run.run s).2 = _
  generalize x.run.run s = r
  obtain ⟨a | a, s'⟩ := r <;> rfl

theorem run_get_bind (s : Store) (f : Store → StoreM β) :
    (get >>= f).run.run s = (f s).run.run s := rfl

theorem run_lift_bind (s : Store) (x : Except Error α) (f : α → StoreM β) :
    ((liftM x : StoreM α) >>= f).run.run s =
      match x with
      | .ok a => (f a).run.run s
      | .error e => (.error e, s) := by
  rw [run_bind, run_lift]
  cases x <;> rfl

end Run

theorem run_insert (s : Store) (form : Form) (truth : Truth) (written : List Value) :
    (insert form truth written).run.run s = (.ok s.nextId, s.inserted form truth written) := by
  unfold insert inserted
  rw [run_get_bind, ← tally_index s ⟨s.nextId, form, truth, written⟩]
  rfl

theorem run_addNode (s : Store) (k : NodeKind) (name : String) (truth : Truth) :
    (addNode k name truth).run.run s =
      if name.isEmpty then (.error (.missingName k), s)
      else (.ok s.nextId, s.inserted (.node k name) truth []) := by
  unfold addNode
  split
  · rfl
  · exact run_insert s _ _ _

theorem run_addLinkWritten (s : Store) (k : LinkKind) (out : List AtomId) (written : List Value)
    (truth : Truth) :
    (addLinkWritten k out written truth).run.run s =
      if k.accepts out.length then
        match out.find? fun ref => !s.contains ref with
        | some ref => (.error (.dangling (.int (Int.ofNat ref))), s)
        | none => (.ok s.nextId, s.inserted (.link k out) truth written)
      else (.error (.outgoingCount (.link k) (.ofNat out.length)), s) := by
  unfold addLinkWritten
  cases hk : k.accepts out.length with
  | false => rfl
  | true =>
    simp only [Bool.not_true, Bool.false_eq_true, if_false, if_true, run_get_bind]
    show (match out.find? fun ref => !s.contains ref with
      | some ref => throw (.dangling (.int (Int.ofNat ref)))
      | none => insert (.link k out) truth written : StoreM AtomId).run.run s = _
    split
    · rfl
    · exact run_insert s _ _ _

theorem run_setTruth (s : Store) (id : AtomId) (t : Truth) :
    (setTruth id t).run.run s =
      match s.get? id with
      | none => (.error (.notFound (.int (Int.ofNat id))), s)
      | some a => (.ok a.truth, s.retruth id t) := by
  unfold setTruth
  rw [run_get_bind]
  cases s.get? id <;> rfl

/-- A root that is stored gets the truth value unless it has it already. -/
theorem run_settle (s : Store) (root : AtomId) (t : Truth) :
    (settle root t).run.run s = (.ok (), match s.get? root with
      | none => s
      | some a => if a.truth == t then s else s.retruth root t) := by
  unfold settle
  rw [run_get_bind]
  cases hg : s.get? root with
  | none => rfl
  | some a =>
    dsimp only
    split
    · rfl
    · show (setTruth root t >>= fun _ => pure ()).run.run s = _
      rw [run_bind, run_setTruth, hg]
      rfl

theorem changes_addNode (s : Store) (k : NodeKind) (name : String) {truth : Truth}
    (ht : truth.IsValid) : Changes s ((addNode k name truth).run.run s).2 := by
  rw [run_addNode]
  split
  · exact .refl
  · next h => exact .single (.insert (Bool.eq_false_iff.2 h) nofun ht .nil)

theorem changes_addLinkWritten (s : Store) (k : LinkKind) {out : List AtomId}
    {written : List Value} (hw : List.Forall₂ Refers written out) {truth : Truth}
    (ht : truth.IsValid) :
    Changes s ((addLinkWritten k out written truth).run.run s).2 := by
  rw [run_addLinkWritten]
  split
  · next hk =>
    split
    · exact .refl
    · next hnone =>
      refine .single (.insert hk (fun ref href => ?_) ht hw)
      have := List.find?_eq_none.1 hnone ref href
      exact contains_iff.1 (by simpa using this)
  · exact .refl

theorem changes_setTruth (s : Store) (id : AtomId) {t : Truth} (ht : t.IsValid) :
    Changes s ((setTruth id t).run.run s).2 := by
  rw [run_setTruth]
  split
  · exact .refl
  · exact .single (.retruth id ht)

end Credence.Store
