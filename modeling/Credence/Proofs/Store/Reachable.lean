import Credence.Proofs.Store.Change
import Credence.Store.Match
/-!
# Reachable stores

A store is reached from the empty one by adding atoms, changing truth values,
asserting trees, asking questions and copying, each of which may fail. Every
reachable store satisfies the invariant.
-/

namespace Credence

/-! ## Truth values of documents -/

theorem Truth.isValid_default : Truth.default.IsValid := ⟨by decide, by decide⟩

theorem Truth.inUnit_of_unit {label : String} {v : Value} {x : Float}
    (h : Truth.unit label v = .ok x) : inUnit x = true := by
  have check : ∀ y : Float, (if inUnit y = true then Except.ok y
      else .error (TruthError.outOfRange label y)) = .ok x → inUnit x = true := by
    intro y hy
    split at hy
    · next hu =>
      cases hy
      exact hu
    · cases hy
  unfold Truth.unit at h
  cases v with
  | int n =>
    dsimp only at h
    split at h
    · exact check _ h
    · cases h
  | float y => exact check y h
  | _ => cases h

theorem Truth.isValid_of_ofNumbers {s c : Value} {t : Truth} (h : Truth.ofNumbers s c = .ok t) :
    t.IsValid := by
  unfold Truth.ofNumbers at h
  cases hs : Truth.unit "strength" s with
  | error e => rw [hs] at h; cases h
  | ok x =>
    cases hc : Truth.unit "confidence" c with
    | error e => rw [hs, hc] at h; cases h
    | ok y =>
      rw [hs, hc] at h
      cases h
      exact ⟨Truth.inUnit_of_unit hs, Truth.inUnit_of_unit hc⟩

/-- The truth value of a document is valid. -/
theorem Truth.isValid_of_ofValue {v : Value} {t : Truth} (h : Truth.ofValue v = .ok t) :
    t.IsValid := by
  unfold Truth.ofValue at h
  split at h
  · exact Truth.isValid_of_ofNumbers h
  · split at h
    · cases h
    · cases h
    · exact Truth.isValid_of_ofNumbers h
  · cases h

theorem Truth.isValid_of_mapError {v : Value} {t : Truth}
    (h : (Truth.ofValue v).mapError Error.truth = .ok t) : t.IsValid := by
  cases hv : Truth.ofValue v with
  | error e => rw [hv] at h; cases h
  | ok u =>
    rw [hv] at h
    cases h
    exact Truth.isValid_of_ofValue hv

namespace Store

theorem isValid_of_truthOf {v : Value} {t : Truth} (h : truthOf v = .ok t) : t.IsValid := by
  unfold truthOf at h
  split at h
  · cases h
    exact Truth.isValid_default
  · exact Truth.isValid_of_mapError h

/-! ## Operations -/

theorem refers_of_children {s : Store} {refs : List Value} {out : List AtomId}
    (h : s.children refs = .ok out) : List.Forall₂ Refers refs out := by
  refine (forall₂_of_mapM h).imp fun v id hv => ?_
  split at hv
  · next hf =>
    cases hv
    exact refers_of_find hf
  · cases hv

theorem changes_add (s : Store) (kind name : Value) (outgoing : List Value) (truth : Value) :
    Changes s ((add kind name outgoing truth).run.run s).2 := by
  unfold add
  dsimp only
  split
  · exact .refl
  · next k _ =>
    split
    · exact .refl
    · split
      · split
        · exact .refl
        · rw [run_lift_bind]
          split
          · next t ht => exact changes_addNode s k _ (isValid_of_truthOf ht)
          · exact .refl
      · exact .refl
  · next k _ =>
    split
    · exact .refl
    · split
      · rw [run_lift_bind]
        split
        · next t ht =>
          rw [run_get_bind, run_lift_bind]
          split
          · next out hout =>
            exact changes_addLinkWritten s k (refers_of_children hout) (isValid_of_truthOf ht)
          · exact .refl
        · exact .refl
      · exact .refl

theorem run_setTruthValue {s : Store} {ref truth : Value} {t : Truth} {id : AtomId} {a : Atom}
    (ht : Truth.ofValue truth = .ok t) (hid : s.resolve ref = .ok id) (ha : s.get? id = some a) :
    (setTruthValue ref truth).run.run s = (.ok a.truth, s.retruth id t) := by
  unfold setTruthValue
  rw [run_lift_bind, ht]
  dsimp only [Except.mapError]
  rw [run_get_bind, run_lift_bind, hid]
  dsimp only
  rw [run_setTruth, ha]

theorem changes_setTruthValue (s : Store) (ref truth : Value) :
    Changes s ((setTruthValue ref truth).run.run s).2 := by
  unfold setTruthValue
  rw [run_lift_bind]
  split
  · next t ht =>
    rw [run_get_bind, run_lift_bind]
    split
    · exact changes_setTruth s _ (Truth.isValid_of_mapError ht)
    · exact .refl
  · exact .refl

theorem Changes.bind {α β : Type} {s : Store} {x : StoreM α} {f : α → StoreM β}
    (hx : Changes s (x.run.run s).2)
    (hf : ∀ a s', x.run.run s = (.ok a, s') → Changes s' ((f a).run.run s').2) :
    Changes s ((x >>= f).run.run s).2 := by
  rw [run_bind]
  split
  · next a s' heq =>
    rw [heq] at hx
    exact hx.trans (hf a s' heq)
  · next heq =>
    rw [heq] at hx
    exact hx

mutual

theorem changes_ensure (truth : Option Truth) (ht : ∀ t, truth = some t → t.IsValid)
    (p : Pattern) (s : Store) : Changes s ((ensure truth p).run.run s).2 := by
  have hdef : (truth.getD .default).IsValid := by
    cases truth with
    | none => exact Truth.isValid_default
    | some t => exact ht t rfl
  cases p with
  | var v =>
    unfold ensure
    exact .refl
  | node k name =>
    cases k with
    | node k =>
      unfold ensure
      rw [run_get_bind]
      split
      · exact .refl
      · exact changes_addNode s k name hdef
    | link k =>
      unfold ensure
      split <;> exact .refl
  | link k cs =>
    cases k with
    | node k =>
      unfold ensure
      refine (changes_ensureList cs s).bind fun ids s' _ => ?_
      split <;> exact .refl
    | link k =>
      unfold ensure
      refine (changes_ensureList cs s).bind fun ids s' _ => ?_
      rw [run_get_bind]
      split
      · exact .refl
      · exact changes_addLinkWritten s' k (refers_ints _) hdef

theorem changes_ensureList (cs : List Pattern) (s : Store) :
    Changes s ((ensureList cs).run.run s).2 := by
  cases cs with
  | nil =>
    unfold ensureList
    exact .refl
  | cons c cs =>
    unfold ensureList
    refine (changes_ensure none nofun c s).bind fun id s' _ => ?_
    exact (changes_ensureList cs s').bind fun ids s'' _ => .refl

end

theorem changes_settle (s : Store) (root : AtomId) {t : Truth} (ht : t.IsValid) :
    Changes s ((settle root t).run.run s).2 := by
  rw [run_settle]
  dsimp only
  split
  · exact .refl
  · split
    · exact .refl
    · exact .single (.retruth root ht)

theorem changes_assert (s : Store) (p : Pattern) (truth : Option Truth)
    (ht : ∀ t, truth = some t → t.IsValid) : Changes s ((assert p truth).run.run s).2 := by
  unfold assert
  dsimp only
  split
  · exact .refl
  · refine (changes_ensure truth ht p s).bind fun root s' _ => ?_
    cases truth with
    | none => exact .refl
    | some t => exact (changes_settle s' root (ht t rfl)).bind fun _ _ _ => .refl

theorem changes_assertValue (s : Store) (p : Pattern) (truth : Value) :
    Changes s ((assertValue p truth).run.run s).2 := by
  unfold assertValue
  dsimp only
  split
  · exact .refl
  · split
    · exact changes_assert s p none nofun
    · rw [run_lift_bind]
      split
      · next t ht =>
        refine changes_assert s p (some t) fun u hu => ?_
        obtain rfl := Option.some.inj hu
        exact Truth.isValid_of_mapError ht
      · exact .refl

/-! ## Copies -/

/-- What a pass over the atoms keeps: atoms of the list, each with everything it refers to, and
the wanted ones of them. -/
structure Closed (wanted : List AtomId) (atoms kept : List Atom) (wanted' : List AtomId) : Prop where
  sublist : kept.Sublist atoms
  wanted : ∀ id ∈ wanted, id ∈ wanted'
  refs : ∀ a ∈ kept, ∀ ref ∈ a.outgoing, ref ∈ wanted'
  kept : ∀ a ∈ atoms, a.id ∈ wanted' → a ∈ kept

theorem closure_cons (wanted : List AtomId) (a : Atom) (atoms : List Atom) :
    closure wanted (a :: atoms) =
      if (closure wanted atoms).2.contains a.id
      then (a :: (closure wanted atoms).1, a.outgoing ++ (closure wanted atoms).2)
      else closure wanted atoms := rfl

theorem closed_closure (wanted : List AtomId) {atoms : List Atom}
    (hasc : (atoms.map Atom.id).Pairwise (· < ·))
    (holder : ∀ a ∈ atoms, ∀ ref ∈ a.outgoing, ref < a.id) :
    Closed wanted atoms (closure wanted atoms).1 (closure wanted atoms).2 := by
  induction atoms with
  | nil => exact ⟨List.Sublist.refl _, fun _ h => h, nofun, nofun⟩
  | cons a atoms ih =>
    rw [List.map_cons, List.pairwise_cons] at hasc
    obtain ⟨hsub, hwanted, hrefs, hkept⟩ := ih hasc.2 fun c hc => holder c (List.mem_cons_of_mem _ hc)
    have hlater : ∀ c ∈ atoms, a.id < c.id := fun c hc => hasc.1 c.id (List.mem_map_of_mem hc)
    have hself := holder a (List.mem_cons_self ..)
    rw [closure_cons]
    split
    · next hin =>
      refine ⟨hsub.cons_cons a, ?_, ?_, ?_⟩
      · intro id hid
        exact List.mem_append_right _ (hwanted id hid)
      · intro c hc ref href
        rcases List.mem_cons.1 hc with rfl | hc
        · exact List.mem_append_left _ href
        · exact List.mem_append_right _ (hrefs c hc ref href)
      · intro c hc hcid
        rcases List.mem_cons.1 hc with rfl | hc
        · exact List.mem_cons_self ..
        · -- References go to smaller identifiers, so the first atom adds nothing that comes later.
          refine List.mem_cons_of_mem _ (hkept c hc ?_)
          rcases List.mem_append.1 hcid with h | h
          · exact absurd (hself _ h) (Nat.not_lt.2 (Nat.le_of_lt (hlater c hc)))
          · exact h
    · next hout =>
      refine ⟨hsub.cons a, hwanted, hrefs, ?_⟩
      intro c hc hcid
      rcases List.mem_cons.1 hc with rfl | hc
      · exact absurd (List.contains_iff_mem.2 hcid) hout
      · exact hkept c hc hcid

theorem foldl_index (atoms : List Atom) (s : Store) (h : s.Indexed) :
    (atoms.foldl index s).Indexed ∧ (atoms.foldl index s).atoms = s.atoms ++ atoms := by
  induction atoms generalizing s with
  | nil => exact ⟨h, (List.append_nil _).symm⟩
  | cons a as ih =>
    obtain ⟨h1, h2⟩ := ih (s.index a) (h.index a)
    refine ⟨h1, ?_⟩
    rw [List.foldl_cons, h2, atoms_index, List.append_assoc]
    rfl

theorem atoms_subset (s : Store) (ids : List AtomId) :
    (s.subset ids).atoms = (closure ids s.atoms).1 :=
  (foldl_index _ _ indexed_empty).2

/-- A copy of a part of a store satisfies the invariant. -/
theorem Inv.subset {s : Store} (h : s.Inv) (ids : List AtomId) : (s.subset ids).Inv := by
  obtain ⟨_, ⟨hasc, hpos, hbelow, holder, hfits, hvalid⟩, hnext⟩ := h
  have hc := closed_closure ids hasc fun a ha ref href => (holder a ha ref href).1
  have hmem : ∀ a ∈ (closure ids s.atoms).1, a ∈ s.atoms := fun a ha => hc.sublist.mem ha
  refine ⟨(foldl_index _ _ indexed_empty).1.congr rfl rfl rfl rfl rfl, ?_, hnext⟩
  refine ⟨?_, ?_, ?_, ?_, ?_, ?_⟩
  · unfold Store.ids
    rw [atoms_subset]
    exact List.Pairwise.sublist (hc.sublist.map _) hasc
  all_goals
    rw [atoms_subset]
    intro a ha
  · exact hpos a (hmem a ha)
  · exact hbelow a (hmem a ha)
  · intro ref href
    obtain ⟨hlt, hin⟩ := holder a (hmem a ha) ref href
    obtain ⟨c, hcs, rfl⟩ := mem_ids.1 hin
    refine ⟨hlt, mem_ids.2 ⟨c, ?_, rfl⟩⟩
    rw [atoms_subset]
    exact hc.kept c hcs (hc.refs a ha _ href)
  · exact hfits a (hmem a ha)
  · exact hvalid a (hmem a ha)

/-! ## Reachable stores -/

/-- The stores that a history of calls leads to, whether its calls succeeded or failed. -/
inductive Reachable : Store → Prop
  | empty : Reachable empty
  | add {s : Store} (h : Reachable s) (kind name : Value) (outgoing : List Value) (truth : Value) :
    Reachable ((add kind name outgoing truth).run.run s).2
  | setTruthValue {s : Store} (h : Reachable s) (ref truth : Value) :
    Reachable ((setTruthValue ref truth).run.run s).2
  | assertValue {s : Store} (h : Reachable s) (p : Pattern) (truth : Value) :
    Reachable ((assertValue p truth).run.run s).2
  | assert {s : Store} (h : Reachable s) (p : Pattern) (truth : Option Truth)
    (ht : ∀ t, truth = some t → t.IsValid) : Reachable ((assert p truth).run.run s).2
  | ask {s : Store} (h : Reachable s) {α : Type} (question : Store → Reading α) :
    Reachable ((Reading.run question).run.run s).2
  | snapshot {s : Store} (h : Reachable s) : Reachable s.snapshot
  | subset {s : Store} (h : Reachable s) (ids : List AtomId) : Reachable (s.subset ids)

/-- The store that holds one tree. -/
theorem Reachable.single (p : Pattern) : Reachable ((Store.assert p none).run.run Store.empty).2 :=
  Reachable.empty.assert p none fun _ h => absurd h (Option.some_ne_none _).symm

/-- A question changes the counts of a store only. -/
theorem run_ask (s : Store) {α : Type} (question : Store → Reading α) :
    ∃ tally, ((Reading.run question).run.run s).2 = { s with tally } := by
  unfold Reading.run
  rw [run_get_bind]
  generalize Id.run (StateT.run (ExceptT.run (question s)) 0) = r
  obtain ⟨a | a, n⟩ := r <;> exact ⟨_, rfl⟩

theorem Inv.tally {s : Store} (h : s.Inv) (tally : Tally) : Inv { s with tally } := by
  obtain ⟨hx, ⟨hasc, hpos, hbelow, holder, hfits, hvalid⟩, hnext⟩ := h
  exact ⟨hx.congr rfl rfl rfl rfl rfl, ⟨hasc, hpos, hbelow, holder, hfits, hvalid⟩, hnext⟩

/-- Every reachable store satisfies the invariant. -/
theorem Reachable.inv {s : Store} (h : Reachable s) : s.Inv := by
  induction h with
  | empty => exact inv_empty
  | add _ kind name outgoing truth ih => exact (changes_add _ kind name outgoing truth).inv ih
  | setTruthValue _ ref truth ih => exact (changes_setTruthValue _ ref truth).inv ih
  | assertValue _ p truth ih => exact (changes_assertValue _ p truth).inv ih
  | assert _ p truth ht ih => exact (changes_assert _ p truth ht).inv ih
  | ask _ question ih =>
    obtain ⟨tally, hs⟩ := run_ask _ question
    rw [hs]
    exact ih.tally tally
  | snapshot _ ih => exact ih.subset _
  | subset _ ids ih => exact ih.subset ids

end Store

end Credence
