import Credence.Proofs.Pattern.Key
import Credence.Proofs.Store.Grown
/-!
# Looking for what was asserted

Looking for a ground tree finds its oldest atom, while asserting it finds the oldest
atom of its form over the atoms that its children find. Where the two are one in a
copy, they stay one whatever is asserted into it. Where they are not, assertions never
reach the atom that looking for the tree finds, and its truth value stays.
-/

namespace Credence

theorem Pattern.Legible.wellKinded {p : Pattern} (h : p.Legible) : p.WellKinded := by
  induction h with
  | var v => trivial
  | node _ => rfl
  | link k _ ih => exact ⟨rfl, wellKindedList_iff.2 ih⟩

namespace Store

open Pattern

variable {c s : Store} {q : Pattern} {id : AtomId}

/-! ## Atoms with a tree -/

theorem denoteEach_map {b : Bindings} {f : AtomId → Pattern} {ids : List AtomId}
    (h : ∀ id ∈ ids, s.Denotes b (f id) id) : s.DenoteEach b (ids.map f) ids := by
  induction ids with
  | nil =>
    rw [List.map_nil, DenoteEach]
    trivial
  | cons id ids ih =>
    obtain ⟨hid, hids⟩ := List.forall_mem_cons.1 h
    rw [List.map_cons, DenoteEach]
    exact ⟨hid, ih hids⟩

/-- The tree of an atom denotes it. -/
theorem denotes_treeOf (h : s.Inv) (hp : s.Plain) (b : Bindings) (hid : id ∈ s.ids) :
    s.Denotes b (s.treeOf id) id := by
  refine h.induct (P := fun id => s.Denotes b (s.treeOf id) id) (fun a ha k name hf => ?_)
    (fun a ha k out hf hout => ?_) hid
  · rw [treeOf_node h hp ha hf]
    unfold Denotes Atom.kind Atom.name?
    exact ⟨a, get?_eq_some h ha, by rw [hf]; rfl, by rw [hf]⟩
  · rw [treeOf_link h hp ha hf]
    unfold Denotes Atom.kind Atom.outgoing
    refine ⟨a, get?_eq_some h ha, by rw [hf]; rfl, ?_⟩
    rw [hf]
    exact denoteEach_map fun ref href => (hout ref href).2

/-- A ground tree denotes the atoms with this tree. -/
theorem denoted_iff_treeOf (h : s.Inv) (hp : s.Plain) (hq : q.WellKinded)
    (hground : q.isGround = true) : s.Denoted q id ↔ id ∈ s.ids ∧ s.treeOf id = q := by
  constructor
  · rintro ⟨hid, b, hd⟩
    refine ⟨hid, ?_⟩
    rw [← hd.subst_treesOf h hp hq, subst_of_isGround hground]
  · rintro ⟨hid, rfl⟩
    exact ⟨hid, .empty, denotes_treeOf h hp .empty hid⟩

/-- The text of an atom is that of its tree. -/
theorem toText_eq_treeOf (h : s.Inv) (hp : s.Plain) (hid : id ∈ s.ids) :
    s.toText id = .ok (s.treeOf id).toText := by
  unfold toText
  rw [toPattern_eq_treeOf h hp hid]
  rfl

/-- Atoms have the text of a ground tree that have this tree. -/
theorem toText_eq_iff (h : s.Inv) (hp : s.Plain) (hground : q.isGround = true) (hid : id ∈ s.ids) :
    s.toText id = .ok q.toText ↔ s.treeOf id = q := by
  rw [toText_eq_treeOf h hp hid]
  constructor
  · exact fun heq => toText_inj (isGround_treeOf h hp hid) hground (Except.ok.inj heq)
  · rintro rfl
    rfl

/-- Whether an atom is the oldest one with a text. -/
structure Eldest (s : Store) (text : String) (a : Atom) : Prop where
  mem : a ∈ s.atoms
  reads : s.toText a.id = .ok text
  oldest : ∀ b ∈ s.atoms, s.toText b.id = .ok text → a.id ≤ b.id

/-! ## What looking finds -/

theorem Found.denoted (h : s.Found q (Option.some id)) : s.Denoted q id := by
  cases h with
  | some hd _ => exact hd

theorem Found.unique {o o' : Option AtomId} (h : s.Found q o) (h' : s.Found q o') : o = o' := by
  cases h with
  | none hnone =>
    cases h' with
    | none _ => rfl
    | some hd _ => exact absurd hd (hnone _)
  | some hd hle =>
    cases h' with
    | none hnone => exact absurd hd (hnone _)
    | some hd' hle' => rw [Nat.le_antisymm (hle _ hd') (hle' _ hd)]

theorem lookup_eq_iff (h : s.Inv) {o : Option AtomId} : s.lookup q = .ok o ↔ s.Found q o := by
  obtain ⟨o', ho', hfound⟩ := found_of_lookup h q
  rw [ho']
  constructor
  · intro heq
    cases heq
    exact hfound
  · intro hfound'
    rw [hfound.unique hfound']

theorem denoted_of_existing (h : s.Inv) (hq : s.existing q = some id) : s.Denoted q id :=
  ⟨mem_ids_of_existing hq, .empty, denotes_of_existing h _ hq⟩

/-- Looking for a ground tree finds the oldest atom with its text. -/
theorem found_iff_eldest (h : s.Inv) (hp : s.Plain) (hq : q.WellKinded)
    (hground : q.isGround = true) {a : Atom} (ha : a ∈ s.atoms) :
    s.Found q (some a.id) ↔ s.Eldest q.toText a := by
  have hdenoted : ∀ {id}, s.Denoted q id ↔ id ∈ s.ids ∧ s.treeOf id = q :=
    denoted_iff_treeOf h hp hq hground
  constructor
  · intro hf
    cases hf with
    | some hd hle =>
      obtain ⟨hid, htree⟩ := hdenoted.1 hd
      refine ⟨ha, (toText_eq_iff h hp hground hid).2 htree, fun b hb htext => ?_⟩
      have hb := mem_ids.2 ⟨b, hb, rfl⟩
      exact hle b.id (hdenoted.2 ⟨hb, (toText_eq_iff h hp hground hb).1 htext⟩)
  · intro he
    have hid := mem_ids.2 ⟨a, ha, rfl⟩
    refine .some (hdenoted.2 ⟨hid, (toText_eq_iff h hp hground hid).1 he.reads⟩) fun x hx => ?_
    obtain ⟨hx, htree⟩ := hdenoted.1 hx
    obtain ⟨b, hb, rfl⟩ := mem_ids.1 hx
    exact he.oldest b hb ((toText_eq_iff h hp hground hx).2 htree)

/-- Whether looking for a tree finds the atom that asserting it finds. -/
def Traced (s : Store) (q : Pattern) : Prop := s.lookup q = .ok (s.existing q)

theorem traced_iff (h : s.Inv) (hf : s.Found q (some id)) :
    s.Traced q ↔ s.existing q = some id := by
  unfold Traced
  rw [lookup_eq_iff h]
  exact ⟨fun hf' => hf'.unique hf, fun he => he ▸ hf⟩

/-- Whether the trees with a text are found where assertions find them. -/
def Recognized (s : Store) (text : String) : Prop :=
  ∀ q, q.isGround = true → q.toText = text → s.Traced q

/-! ## Copies that grew -/

section

variable (h : Overlay c s) (hc : c.Inv)
include h hc

/-- What looking finds in the copy it finds in the store: new atoms are younger. -/
theorem Overlay.found_old (hf : c.Found q (some id)) : s.Found q (some id) := by
  cases hf with
  | some hd hle =>
    have hsame : ∀ {x}, x ∈ c.ids → (s.Denoted q x ↔ c.Denoted q x) := fun {x} hx =>
      ⟨fun ⟨_, b, hd⟩ => ⟨hx, b, (Retains.denotes_iff h.old hc h.inv hx).1 hd⟩, fun ⟨_, b, hd⟩ =>
        ⟨Retains.stored h.old hx, b, (Retains.denotes_iff h.old hc h.inv hx).2 hd⟩⟩
    refine .some ((hsame hd.1).2 hd) fun x hx => ?_
    rcases h.fresh x hx.1 with hold | hnew
    · exact hle x ((hsame hold).1 hx)
    · obtain ⟨a, ha, rfl⟩ := mem_ids.1 hd.1
      exact Nat.le_of_lt (Nat.lt_of_lt_of_le (hc.formed.below a ha) hnew)

/-- A tree that has no atom in the copy is found where assertions find it. -/
theorem Overlay.found_new (hq : q.Legible) (hground : q.isGround = true) (hf : c.Found q none) :
    s.Found q (s.existing q) := by
  cases hf with
  | none hnone =>
    have hnew : ∀ id, s.Denoted q id → s.existing q = some id := fun id hd =>
      h.existing_of_denoted hq hground hd fun hold =>
        hnone id ⟨hold, hd.2.imp fun _ => (Retains.denotes_iff h.old hc h.inv hold).1⟩
    cases he : s.existing q with
    | none => exact .none fun id hd => nomatch he.symm.trans (hnew id hd)
    | some id =>
      refine .some (denoted_of_existing h.inv he) fun x hx => ?_
      rw [Option.some.inj (he.symm.trans (hnew x hx))]

/-- Where looking for a tree finds what assertions find, it does so after any assertions. -/
theorem Overlay.traced (hq : q.Legible) (hground : q.isGround = true) (ht : c.Traced q) :
    s.Traced q := by
  unfold Traced at *
  rw [lookup_eq_iff hc] at ht
  rw [lookup_eq_iff h.inv]
  cases he : c.existing q with
  | none => exact h.found_new hc hq hground (he ▸ ht)
  | some id =>
    rw [h.keeps.existing he]
    exact h.found_old hc (he ▸ ht)

/-- An atom of a tree that assertions of the tree do not find stays as it was. -/
theorem Overlay.get?_of_untraced (hq : q.Legible) (hground : q.isGround = true)
    (hd : c.Denoted q id) (hne : c.existing q ≠ some id) : s.get? id = c.get? id := by
  obtain ⟨hid, b, hd⟩ := hd
  obtain ⟨a, ha, rfl⟩ := mem_ids.1 hid
  obtain ⟨a', ha', hid', _⟩ := h.old a ha
  rcases h.owned a' ha' with ⟨p, hp⟩ | hold
  · have hold := h.existing_old hc (hid' ▸ hp) hid
    exact absurd (eq_of_denotes hc hq (isGround_iff.1 hground) hd hold ▸ hold) hne
  · obtain rfl := atom_unique hc hold ha hid'
    rw [get?_eq_some h.inv ha', get?_eq_some hc ha]

end

/-! ## Atoms told apart by their trees -/

section

variable (hd : s.Distinct) (h : s.Inv) (hp : s.Plain)
include hd h hp

theorem Distinct.oldest {a : Atom} (ha : a ∈ s.atoms) : s.oldest a.form = some a.id := by
  cases ho : s.oldest a.form with
  | none => exact absurd rfl (oldest_eq_none_iff.1 ho a ha)
  | some id =>
    obtain ⟨b, hb, rfl, hform⟩ := mem_of_oldest ho
    have htree : s.treeOf b.id = s.treeOf a.id := by
      rw [treeOf_eq_form h hp hb, treeOf_eq_form h hp ha, hform]
    rw [hd.eq_of_treeOf h hp (mem_ids.2 ⟨b, hb, rfl⟩) (mem_ids.2 ⟨a, ha, rfl⟩) htree]

/-- Every atom is the one that assertions of its tree find. -/
theorem Distinct.existing_treeOf (hid : id ∈ s.ids) : s.existing (s.treeOf id) = some id := by
  refine h.induct (P := fun id => s.existing (s.treeOf id) = some id) (fun a ha k name hf => ?_)
    (fun a ha k out hf hout => ?_) hid
  · have ho := hd.oldest h hp ha
    rw [hf] at ho
    rw [treeOf_node h hp ha hf]
    exact ho
  · have ho := hd.oldest h hp ha
    rw [hf] at ho
    have hids : s.existingList (out.map s.treeOf) = some out := by
      rw [existingList_eq_some_iff, List.forall₂_map_left_iff, List.forall₂_same]
      exact fun ref href => (hout ref href).2
    rw [treeOf_link h hp ha hf, existing_link, hids]
    exact ho

theorem Distinct.traced (hq : q.WellKinded) (hground : q.isGround = true) : s.Traced q := by
  obtain ⟨o, ho, hfound⟩ := found_of_lookup h q
  unfold Traced
  rw [ho]
  cases hfound with
  | none hnone =>
    cases he : s.existing q with
    | none => rfl
    | some id => exact absurd (denoted_of_existing h he) (hnone id)
  | some hdenoted _ =>
    obtain ⟨hid, rfl⟩ := (denoted_iff_treeOf h hp hq hground).1 hdenoted
    rw [hd.existing_treeOf h hp hid]

end

end Store

end Credence
