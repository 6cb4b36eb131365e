import Credence.Proofs.Store.Legible
import Credence.Proofs.Store.Rating
/-!
# Asserting into a copy

A store that grows by assertions keeps the atoms of the copy it started from. Every
other atom stands for a tree, and so does every atom whose truth value was replaced.
-/

namespace Credence.Store

open Pattern

variable {c s s' : Store}

/-- What holds of a store that grew from a copy by asserting trees. -/
structure Overlay (c s : Store) : Prop where
  inv : s.Inv
  readable : s.Readable
  keeps : Keeps c s
  next : c.nextId ≤ s.nextId
  old : ∀ a ∈ c.atoms, ∃ b ∈ s.atoms, b.id = a.id ∧ b.form = a.form
  fresh : ∀ id ∈ s.ids, id ∈ c.ids ∨ c.nextId ≤ id
  owned : ∀ a ∈ s.atoms, (∃ q, s.existing q = some a.id) ∨ a ∈ c.atoms

theorem overlay_refl (h : c.Inv) (hr : c.Readable) : Overlay c c where
  inv := h
  readable := hr
  keeps _ _ ho := ho
  next := Nat.le_refl _
  old a ha := ⟨a, ha, rfl, rfl⟩
  fresh _ hid := .inl hid
  owned _ ha := .inr ha

/-- Storing an atom for a tree that had none. -/
theorem Overlay.plant (h : Overlay c s) {q : Pattern} (hq : q.Legible) {form : Form} {t : Truth}
    (ht : t.IsValid) (written : List Value) (hform : s.formOf q = some form)
    (hnew : s.oldest form = none) (hf : form.Fits) :
    Overlay c (s.inserted form t written) where
  inv := h.inv.inserted hf (refs_of_formOf hform) ht written
  readable a ha k name hnode := by
    rw [atoms_inserted] at ha
    rcases List.mem_append.1 ha with ha | ha
    · exact h.readable a ha k name hnode
    · obtain rfl := List.mem_singleton.1 ha
      obtain rfl : form = .node k name := hnode
      unfold formOf at hform
      split at hform
      · cases hform
        cases hq with
        | node hread => exact ⟨_, hread⟩
      · obtain ⟨_, _, heq⟩ := Option.map_eq_some_iff.1 hform
        cases heq
      · cases hform
  keeps f id ho := keeps_inserted f id (h.keeps f id ho)
  next := Nat.le_succ_of_le h.next
  old a ha := by
    obtain ⟨b, hb, heq⟩ := h.old a ha
    exact ⟨b, by rw [atoms_inserted]; exact List.mem_append_left _ hb, heq⟩
  fresh id hid := by
    rw [ids_inserted] at hid
    rcases List.mem_append.1 hid with hid | hid
    · exact h.fresh id hid
    · rw [List.mem_singleton.1 hid]
      exact .inr h.next
  owned a ha := by
    rw [atoms_inserted] at ha
    rcases List.mem_append.1 ha with ha | ha
    · exact (h.owned a ha).imp_left fun hq => hq.imp fun _ => keeps_inserted.existing
    · obtain rfl := List.mem_singleton.1 ha
      exact .inl ⟨q, by rw [existing_inserted h.inv hform hnew, if_pos rfl]⟩

theorem Overlay.plants (h : Overlay c s)
    {J : Pattern → Truth → Prop} (hJ : ∀ q t, J q t → q.Legible ∧ t.IsValid)
    (hs : Plants J s s') : Overlay c s' := by
  induction hs with
  | refl => exact h
  | tail _ hstep ih =>
    obtain ⟨written, hj, hform, hnew, hf⟩ := hstep
    exact ih.plant (hJ _ _ hj).1 (hJ _ _ hj).2 written hform hnew hf

/-- Replacing the truth value of the atom of a tree. -/
theorem Overlay.retruth (h : Overlay c s) {q : Pattern} {root : AtomId}
    (hq : s.existing q = some root) {t : Truth} (ht : t.IsValid) :
    Overlay c (s.retruth root t) where
  inv := h.inv.retruth root ht
  readable a ha k name hnode := by
    obtain ⟨b, hb, _, hform, _⟩ := mem_retruth ha
    exact h.readable b hb k name (hform ▸ hnode)
  keeps f id ho := by
    rw [oldest_retruth]
    exact h.keeps f id ho
  next := h.next
  old a ha := by
    obtain ⟨b, hb, hid, hform⟩ := h.old a ha
    rw [atoms_retruth]
    refine ⟨_, List.mem_map_of_mem hb, ?_, ?_⟩ <;> split <;> assumption
  fresh id hid := by
    rw [ids_retruth] at hid
    exact h.fresh id hid
  owned a ha := by
    rw [atoms_retruth] at ha
    obtain ⟨b, hb, rfl⟩ := List.mem_map.1 ha
    simp only [existing_retruth]
    split
    · next hid => exact .inl ⟨q, hid ▸ hq⟩
    · exact h.owned b hb

/-- Asserting a tree that can be read back. -/
theorem Overlay.assert (h : Overlay c s) {p : Pattern} (hp : p.Legible) {t : Truth}
    (ht : t.IsValid) {id : AtomId} (hrun : (Store.assert p (some t)).run.run s = (.ok id, s')) :
    Overlay c s' := by
  obtain ⟨u, hplants, hroot, hlast⟩ := plants_of_assert h.inv hrun
  have hu : Overlay c u := by
    refine h.plants (fun q v hv => ⟨?_, isValid_of_assigned ht hv⟩) hplants
    rcases hv with ⟨rfl, _⟩ | ⟨hpart, _⟩
    · exact hp
    · exact hp.part hpart
  rcases hlast with rfl | ⟨rfl, _⟩
  · exact hu.retruth hroot ht
  · exact hu

mutual

/-- An old atom that stands for a tree did so in the copy. -/
theorem Overlay.existing_old {c s : Store} (h : Overlay c s) (hc : c.Inv) {q : Pattern}
    {id : AtomId} (hq : s.existing q = some id) (hid : id ∈ c.ids) : c.existing q = some id := by
  have hform : ∀ {form : Form}, s.oldest form = some id →
      (∃ a ∈ c.atoms, a.form = form) ∧ c.oldest form = some id := by
    intro form ho
    obtain ⟨a, ha, rfl⟩ := mem_ids.1 hid
    obtain ⟨b, hb, hba, hf⟩ := h.old a ha
    obtain ⟨d, hd, hda, rfl⟩ := mem_of_oldest ho
    have heq := get?_eq_some h.inv hd
    rw [hda, ← hba, get?_eq_some h.inv hb] at heq
    cases heq
    refine ⟨⟨a, ha, hf.symm⟩, ?_⟩
    cases hold : c.oldest b.form with
    | none => exact absurd hf.symm (oldest_eq_none_iff.1 hold a ha)
    | some x => exact (h.keeps _ _ hold).symm.trans ho
  cases q with
  | var v => cases hq
  | node k name =>
    cases k with
    | link k => cases hq
    | node k => exact (hform hq).2
  | link k cs =>
    cases k with
    | node k => cases hq
    | link k =>
      rw [existing_link] at hq ⊢
      obtain ⟨ids, hids, ho⟩ := Option.bind_eq_some_iff.1 hq
      obtain ⟨⟨a, ha, hf⟩, hold⟩ := hform ho
      -- The children of an old atom are old.
      rw [Overlay.existingList_old h hc hids fun ref href => (older_of_link hc ha hf href).2]
      exact hold

theorem Overlay.existingList_old {c s : Store} (h : Overlay c s) (hc : c.Inv) {cs : List Pattern}
    {ids : List AtomId} (hq : s.existingList cs = some ids) (hids : ∀ id ∈ ids, id ∈ c.ids) :
    c.existingList cs = some ids := by
  cases cs with
  | nil => exact hq
  | cons d ds =>
    obtain ⟨id, rest, hd, hds, rfl⟩ := existingList_cons_eq_some.1 hq
    obtain ⟨hid, hrest⟩ := List.forall_mem_cons.1 hids
    exact existingList_cons_eq_some.2 ⟨id, rest, Overlay.existing_old h hc hd hid,
      Overlay.existingList_old h hc hds hrest, rfl⟩

end

end Credence.Store
