import Credence.Proofs.Store.Consistency
import Credence.Proofs.Store.Scan
/-!
# Excerpts of a store

An excerpt holds some of the atoms of a store, each with everything that it refers to.
Its indexes list what those of the store list of these atoms, and a pattern finds in it
the matches that it finds in the store, as far as their atoms were kept.

`closure` keeps what the wanted atoms lead to along references, so the copies that it
makes are excerpts.
-/

namespace Credence.Store

variable {s c : Store}

/-- Whether the atoms of a store are some of those of another, in the same order. -/
def Excerpt (c s : Store) : Prop := c.atoms.Sublist s.atoms

section

variable (hx : Excerpt c s) (hs : s.Inv)
include hx hs

theorem Excerpt.inside {a : Atom} (ha : a ∈ s.atoms) :
    c.contains a.id = true ↔ a ∈ c.atoms := by
  rw [contains_iff, mem_ids]
  constructor
  · rintro ⟨b, hb, hid⟩
    have hget := get?_eq_some hs (hx.mem hb)
    rw [hid, get?_eq_some hs ha] at hget
    cases hget
    exact hb
  · intro hc
    exact ⟨a, hc, rfl⟩

theorem Excerpt.atoms_eq : c.atoms = s.atoms.filter fun a => c.contains a.id := by
  have hn : s.atoms.Nodup := by
    refine List.Pairwise.of_map Atom.id (fun a b hlt heq => ?_) hs.formed.ascending
    simp [heq] at hlt
  have hsub : c.atoms.Sublist (s.atoms.filter fun a => c.contains a.id) := by
    have h := hx.filter fun a => c.contains a.id
    rwa [List.filter_eq_self.2 fun a ha => (hx.inside hs (hx.mem ha)).2 ha] at h
  apply hsub.eq_of_length
  apply List.Perm.length_eq
  rw [List.perm_ext_iff_of_nodup (hn.sublist hx) (hn.sublist List.filter_sublist)]
  intro a
  rw [List.mem_filter]
  exact ⟨fun ha => ⟨hx.mem ha, (hx.inside hs (hx.mem ha)).2 ha⟩,
    fun ha => (hx.inside hs ha.1).1 ha.2⟩

theorem Excerpt.idsWhere_eq (test : Atom → Bool) :
    c.idsWhere test = (s.idsWhere test).filter c.contains := by
  unfold idsWhere
  conv_lhs => rw [hx.atoms_eq hs]
  rw [List.filter_filter, List.filter_map, List.filter_filter]
  congr 1
  apply List.filter_congr
  intro a _
  simp [Bool.and_comm]

theorem Excerpt.ids_eq : c.ids = s.ids.filter c.contains := by
  unfold ids
  conv_lhs => rw [hx.atoms_eq hs]
  rw [List.filter_map]
  rfl

/-- An atom that was kept has the same record as before. -/
theorem Excerpt.get?_eq (hc : c.Inv) {id : AtomId} (hid : c.contains id = true) :
    c.get? id = s.get? id := by
  obtain ⟨a, ha, rfl⟩ := mem_ids.1 (contains_iff.1 hid)
  rw [get?_eq_some hc ha, get?_eq_some hs (hx.mem ha)]

omit hs in
theorem Excerpt.holds {b : Bindings} (hb : c.Holds b) : s.Holds b := by
  intro v id hv
  obtain ⟨a, ha, rfl⟩ := mem_ids.1 (contains_iff.1 (hb v id hv))
  exact contains_iff.2 (mem_ids.2 ⟨a, hx.mem ha, rfl⟩)

end

/-! ## Matches -/

mutual

/-- A pattern fits an atom of an excerpt as it fits the atom in the store. -/
theorem Excerpt.matchAtom_eq (hx : Excerpt c s) (hs : s.Inv) (hc : c.Inv) (p : Pattern)
    {id : AtomId} (hid : c.contains id = true) (b : Bindings) :
    c.matchAtom p id b = s.matchAtom p id b := by
  cases p with
  | var v => simp only [matchAtom]
  | node k name => simp only [matchAtom, hx.get?_eq hs hc hid]
  | link k cs =>
    obtain ⟨a, ha, rfl⟩ := mem_ids.1 (contains_iff.1 hid)
    have hrefs : ∀ ref ∈ a.outgoing, c.contains ref = true := by
      intro ref href
      exact contains_iff.2 (hc.formed.older a ha ref href).2
    simp only [matchAtom, get?_eq_some hc ha, get?_eq_some hs (hx.mem ha)]
    split
    · exact hx.matchSlots_eq hs hc cs hrefs b
    · rfl

theorem Excerpt.matchSlots_eq (hx : Excerpt c s) (hs : s.Inv) (hc : c.Inv) (cs : List Pattern)
    {ids : List AtomId} (hids : ∀ id ∈ ids, c.contains id = true) (b : Bindings) :
    c.matchSlots cs ids b = s.matchSlots cs ids b := by
  cases cs with
  | nil => simp only [matchSlots]
  | cons q cs =>
    cases ids with
    | nil => simp only [matchSlots]
    | cons id ids =>
      obtain ⟨hid, hids⟩ := List.forall_mem_cons.1 hids
      simp only [matchSlots, hx.matchAtom_eq hs hc q hid]
      split
      · exact hx.matchSlots_eq hs hc cs hids _
      · rfl

end

theorem Excerpt.scan_eq (hx : Excerpt c s) (hs : s.Inv) (hc : c.Inv) (p : Pattern) (b : Bindings) :
    c.scan p b = (s.scan p b).filter fun m => c.contains m.atomId := by
  unfold scan
  rw [hx.ids_eq hs, List.filterMap_filter, List.filter_filterMap]
  apply List.filterMap_congr
  intro id _
  by_cases hid : c.contains id = true
  · rw [if_pos hid, hx.matchAtom_eq hs hc p hid]
    cases s.matchAtom p id b <;> simp [Option.filter, hid]
  · rw [if_neg hid]
    cases s.matchAtom p id b <;> simp [Option.filter, hid]

/-- Matching in an excerpt finds the matches of the store whose atoms were kept. -/
theorem Excerpt.matchesFrom_eq (hx : Excerpt c s) (hs : s.Inv) (hc : c.Inv) (p : Pattern)
    {b : Bindings} (hb : c.Holds b) :
    ∃ ms, s.matchesFrom p b = .ok ms ∧
      c.matchesFrom p b = .ok (ms.filter fun m => c.contains m.atomId) := by
  refine ⟨_, matchesFrom_eq_scan hs p (hx.holds hb), ?_⟩
  rw [matchesFrom_eq_scan hc p hb, hx.scan_eq hs hc]

/-! ## What the wanted atoms lead to -/

/-- Whether one of some atoms leads to an atom along references. -/
def LedTo (s : Store) (roots : List AtomId) (id : AtomId) : Prop :=
  ∃ root ∈ roots, Relation.ReflTransGen s.ChildOf id root

theorem LedTo.child {roots : List AtomId} {id ref : AtomId} (h : s.LedTo roots id)
    (hr : s.ChildOf ref id) : s.LedTo roots ref := by
  obtain ⟨root, hroot, hpath⟩ := h
  exact ⟨root, hroot, hpath.head hr⟩

/-- All that is wanted in the end was wanted at first or is led to, and what is kept is wanted. -/
theorem ledTo_closure (wanted : List AtomId) {atoms : List Atom} (hsub : ∀ a ∈ atoms, a ∈ s.atoms) :
    (∀ id ∈ (closure wanted atoms).2, s.LedTo wanted id) ∧
      ∀ a ∈ (closure wanted atoms).1, a.id ∈ (closure wanted atoms).2 := by
  induction atoms with
  | nil => exact ⟨fun id hid => ⟨id, hid, .refl⟩, nofun⟩
  | cons a atoms ih =>
    obtain ⟨ha, hsub⟩ := List.forall_mem_cons.1 hsub
    obtain ⟨hled, hkept⟩ := ih hsub
    rw [closure_cons]
    split
    · next hin =>
      have hin := List.contains_iff_mem.1 hin
      constructor
      · intro id hid
        rcases List.mem_append.1 hid with hid | hid
        · exact (hled a.id hin).child ⟨a, ha, rfl, hid⟩
        · exact hled id hid
      · intro d hd
        rcases List.mem_cons.1 hd with rfl | hd
        · exact List.mem_append_right _ hin
        · exact List.mem_append_right _ (hkept d hd)
    · exact ⟨hled, hkept⟩

theorem excerpt_subset (h : s.Inv) (roots : List AtomId) : Excerpt (s.subset roots) s := by
  unfold Excerpt
  rw [atoms_subset]
  exact (closed_closure roots h.formed.ascending fun a ha ref href =>
    (h.formed.older a ha ref href).1).sublist

/-- A copy holds the atoms that its roots lead to. -/
theorem contains_subset_iff (h : s.Inv) (roots : List AtomId) {id : AtomId} :
    (s.subset roots).contains id = true ↔ id ∈ s.ids ∧ s.LedTo roots id := by
  have hc := closed_closure roots h.formed.ascending fun a ha ref href =>
    (h.formed.older a ha ref href).1
  obtain ⟨hled, hkept⟩ := ledTo_closure (s := s) roots fun a ha => ha
  rw [contains_iff, mem_ids, atoms_subset]
  constructor
  · rintro ⟨a, ha, rfl⟩
    exact ⟨mem_ids.2 ⟨a, hc.sublist.mem ha, rfl⟩, hled a.id (hkept a ha)⟩
  · rintro ⟨hid, root, hroot, hpath⟩
    -- Along the path from the root every atom is wanted, hence kept.
    have hwanted : id ∈ (closure roots s.atoms).2 := by
      induction hpath using Relation.ReflTransGen.head_induction_on with
      | refl => exact hc.wanted root hroot
      | head hstep _ ih =>
        obtain ⟨a, ha, rfl, href⟩ := hstep
        exact hc.refs a (hc.kept a ha (ih (mem_ids.2 ⟨a, ha, rfl⟩))) _ href
    obtain ⟨a, ha, rfl⟩ := mem_ids.1 hid
    exact ⟨a, hc.kept a ha hwanted, rfl⟩

end Credence.Store
