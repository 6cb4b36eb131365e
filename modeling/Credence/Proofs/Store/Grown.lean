import Credence.Proofs.Store.Counterpart
import Credence.Proofs.Store.Question
/-!
# Growing from copies with other confidences

Two copies that differ in confidences stay twins as to strengths while the same trees
are asserted in both. An atom that either of them got since, or whose truth value was
replaced, has the same truth value in both, so where confidences differ the atoms are
still those of the copies.
-/

namespace Credence.Store

open Pattern

variable {c c' s s' : Store}

/-! ## What atoms of a copy stand for -/

/-- Whether a store has every atom of a copy, with some truth value. -/
def Retains (c s : Store) : Prop := ∀ a ∈ c.atoms, ∃ b ∈ s.atoms, b.id = a.id ∧ b.form = a.form

theorem Change.retains (h : Change s s') (hs : Retains c s) : Retains c s' := by
  intro a ha
  obtain ⟨b, hb, hid, hform⟩ := hs a ha
  cases h with
  | insert => exact ⟨b, by rw [atoms_inserted]; exact List.mem_append_left _ hb, hid, hform⟩
  | retruth root ht =>
    rw [atoms_retruth]
    refine ⟨_, List.mem_map_of_mem hb, ?_, ?_⟩ <;> split <;> assumption

theorem Changes.retains (h : Changes s s') (hs : Retains c s) : Retains c s' := by
  induction h with
  | refl => exact hs
  | tail _ hc ih => exact hc.retains ih

theorem Retains.stored (h : Retains c s) {id : AtomId} (hid : id ∈ c.ids) : id ∈ s.ids := by
  obtain ⟨a, ha, rfl⟩ := mem_ids.1 hid
  obtain ⟨b, hb, heq, _⟩ := h a ha
  exact mem_ids.2 ⟨b, hb, heq⟩

/-- The form of an atom of the copy is what it was. -/
theorem Retains.get? (h : Retains c s) (hs : s.Inv) {id : AtomId} (hid : id ∈ c.ids)
    {b : Atom} (hb : s.get? id = some b) : ∃ a ∈ c.atoms, a.id = id ∧ a.form = b.form := by
  obtain ⟨a, ha, rfl⟩ := mem_ids.1 hid
  obtain ⟨d, hd, hda, hform⟩ := h a ha
  rw [← hda, get?_eq_some hs hd] at hb
  cases hb
  exact ⟨a, ha, rfl, hform.symm⟩

mutual

/-- A pattern denotes an atom in another store too if that has all atoms below it, with their
forms. -/
theorem Denotes.transfer {s s' : Store} {P : AtomId → Prop}
    (h : ∀ id, P id → ∀ a, s.get? id = some a →
      (∃ a', s'.get? id = some a' ∧ a'.form = a.form) ∧ ∀ ref ∈ a.outgoing, P ref)
    {b : Bindings} {p : Pattern} {id : AtomId} (hid : P id) (hd : s.Denotes b p id) :
    s'.Denotes b p id := by
  cases p with
  | var v => exact hd
  | node k name =>
    unfold Denotes at hd ⊢
    obtain ⟨a, hget, hk, hn⟩ := hd
    obtain ⟨⟨a', hget', hform⟩, _⟩ := h id hid a hget
    unfold Atom.kind Atom.name? at *
    exact ⟨a', hget', hform ▸ hk, hform ▸ hn⟩
  | link k cs =>
    unfold Denotes at hd ⊢
    obtain ⟨a, hget, hk, hcs⟩ := hd
    obtain ⟨⟨a', hget', hform⟩, hrefs⟩ := h id hid a hget
    unfold Atom.kind at *
    unfold Atom.outgoing at *
    exact ⟨a', hget', hform ▸ hk, hform ▸ Denotes.transferEach h hrefs hcs⟩

theorem Denotes.transferEach {s s' : Store} {P : AtomId → Prop}
    (h : ∀ id, P id → ∀ a, s.get? id = some a →
      (∃ a', s'.get? id = some a' ∧ a'.form = a.form) ∧ ∀ ref ∈ a.outgoing, P ref)
    {b : Bindings} {cs : List Pattern} {ids : List AtomId} (hids : ∀ id ∈ ids, P id)
    (hd : s.DenoteEach b cs ids) : s'.DenoteEach b cs ids := by
  cases cs with
  | nil => cases ids <;> exact hd
  | cons q cs =>
    cases ids with
    | nil => exact hd
    | cons id ids =>
      unfold DenoteEach at hd ⊢
      obtain ⟨hid, hids⟩ := List.forall_mem_cons.1 hids
      exact ⟨Denotes.transfer h hid hd.1, Denotes.transferEach h hids hd.2⟩

end

/-- A pattern denotes the same atoms of the copy in the copy and in the store. -/
theorem Retains.denotes_iff (h : Retains c s) (hc : c.Inv) (hs : s.Inv) {b : Bindings} {p : Pattern}
    {id : AtomId} (hid : id ∈ c.ids) : s.Denotes b p id ↔ c.Denotes b p id := by
  constructor
  · refine Denotes.transfer (P := (· ∈ c.ids)) (fun id hid d hget => ?_) hid
    obtain ⟨a, ha, rfl, hform⟩ := h.get? hs hid hget
    refine ⟨⟨a, get?_eq_some hc ha, hform⟩, fun ref href => (hc.formed.older a ha ref ?_).2⟩
    unfold Atom.outgoing at *
    rwa [hform]
  · refine Denotes.transfer (P := (· ∈ c.ids)) (fun id hid a hget => ?_) hid
    obtain ⟨ha, rfl⟩ := (get?_some_iff hc.formed.ascending).1 hget
    obtain ⟨d, hd, hda, hform⟩ := h a ha
    exact ⟨⟨d, hda ▸ get?_eq_some hs hd, hform⟩, fun ref href => (hc.formed.older a ha ref href).2⟩

mutual

/-- A tree denotes its atom. -/
theorem denotes_of_existing {s : Store} (h : s.Inv) (b : Bindings) {p : Pattern} {id : AtomId}
    (he : s.existing p = some id) : s.Denotes b p id := by
  cases p with
  | var v => cases he
  | node k name =>
    cases k with
    | link k => cases he
    | node k =>
      obtain ⟨a, ha, rfl, hform⟩ := mem_of_oldest he
      unfold Denotes Atom.kind Atom.name?
      exact ⟨a, get?_eq_some h ha, by rw [hform]; rfl, by rw [hform]⟩
  | link k cs =>
    cases k with
    | node k => cases he
    | link k =>
      rw [existing_link] at he
      obtain ⟨ids, hids, ho⟩ := Option.bind_eq_some_iff.1 he
      obtain ⟨a, ha, rfl, hform⟩ := mem_of_oldest ho
      unfold Denotes Atom.kind Atom.outgoing
      refine ⟨a, get?_eq_some h ha, by rw [hform]; rfl, ?_⟩
      rw [hform]
      exact denoteEach_of_existingList h b hids

theorem denoteEach_of_existingList {s : Store} (h : s.Inv) (b : Bindings) {cs : List Pattern}
    {ids : List AtomId} (he : s.existingList cs = some ids) : s.DenoteEach b cs ids := by
  cases cs with
  | nil =>
    cases he
    unfold DenoteEach
    trivial
  | cons q cs =>
    obtain ⟨id, rest, hid, hrest, rfl⟩ := existingList_cons_eq_some.1 he
    unfold DenoteEach
    exact ⟨denotes_of_existing h b hid, denoteEach_of_existingList h b hrest⟩

end

/-! ## Truth values that differ -/

/-- Whether two stores are twins as to strengths, and atoms of one identifier have the same truth
value unless they are those of two copies. -/
structure Grown (c c' s s' : Store) : Prop where
  twin : Twin Truth.strength s s'
  truth : ∀ id a a', s.get? id = some a → s'.get? id = some a' →
    a'.truth = a.truth ∨ (c.get? id = some a ∧ c'.get? id = some a')

theorem grown_refl (h : Twin Truth.strength c c') : Grown c c' c c' :=
  ⟨h, fun _ _ _ ha ha' => .inr ⟨ha, ha'⟩⟩

/-- An atom that both get is the same, and so is a truth value that both get. -/
theorem lasting_grown (c c' : Store) : Lasting Truth.strength (Grown c c') where
  twin h := h.twin
  inserted := by
    intro s s' h form t written
    refine ⟨h.twin.inserted form t written, fun id a a' ha ha' => ?_⟩
    rw [get?_inserted_or] at ha ha'
    rw [h.twin.nextId] at ha'
    rcases h.twin.get?_cases id with ⟨hs, hs'⟩ | ⟨b, b', hs, hs', _⟩
    · rw [hs, Option.none_or] at ha
      rw [hs', Option.none_or, ha] at ha'
      cases ha'
      exact .inl rfl
    · rw [hs, Option.some_or] at ha
      rw [hs', Option.some_or] at ha'
      cases ha
      cases ha'
      exact h.truth id a a' hs hs'
  retruth := by
    intro s s' h root t
    refine ⟨h.twin.retruth root t, fun id a a' ha ha' => ?_⟩
    rw [get?_retruth] at ha ha'
    obtain ⟨b, hs, rfl⟩ := Option.map_eq_some_iff.1 ha
    obtain ⟨b', hs', rfl⟩ := Option.map_eq_some_iff.1 ha'
    rw [id_of_get? hs, id_of_get? hs']
    split
    · exact .inl rfl
    · exact h.truth id b b' hs hs'

end Credence.Store
