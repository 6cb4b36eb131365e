import Credence.Rule.Basic
import Credence.Store.Subset
/-!
# What holds of every store

The four indexes list what a look at all atoms would find, in ascending order. The
atoms themselves are numbered in ascending order, links refer to older atoms of the
store, and every form fits its kind. The first half is kept by indexing any atom
whatever; the second half needs an atom that fits.
-/

namespace Credence

/-- A truth value whose parts lie between zero and one. -/
structure Truth.IsValid (t : Truth) : Prop where
  strength : inUnit t.strength = true
  confidence : inUnit t.confidence = true

/-- Whether a form fits its kind: a node has a name, a link as many children as its kind takes. -/
def Form.Fits : Form → Prop
  | .node _ name => name.isEmpty = false
  | .link k out => k.accepts out.length = true

namespace Store

/-- The identifiers of the atoms that answer a test, in ascending order. -/
def idsWhere (s : Store) (test : Atom → Bool) : List AtomId := (s.atoms.filter test).map Atom.id

/-- The indexes of a store list what a look at all its atoms would find. -/
structure Indexed (s : Store) : Prop where
  named_eq : ∀ name, s.named name = s.idsWhere fun a => a.name? = some name
  idsOf_eq : ∀ k, s.idsOf k = s.idsWhere fun a => a.kind = k
  linksOver_eq : ∀ id, s.linksOver id = s.idsWhere fun a => a.outgoing.contains id
  structure_eq : ∀ k out, s.byStructure.ids (k, out) = s.idsWhere fun a => a.form = .link k out

/-- The atoms of a store are numbered and refer to each other as they should. -/
structure Formed (s : Store) : Prop where
  ascending : s.ids.Pairwise (· < ·)
  positive : ∀ a ∈ s.atoms, 0 < a.id
  below : ∀ a ∈ s.atoms, a.id < s.nextId
  older : ∀ a ∈ s.atoms, ∀ ref ∈ a.outgoing, ref < a.id ∧ ref ∈ s.ids
  fits : ∀ a ∈ s.atoms, a.form.Fits
  valid : ∀ a ∈ s.atoms, a.truth.IsValid

/-- What holds of every store. -/
structure Inv (s : Store) : Prop where
  indexed : s.Indexed
  formed : s.Formed
  nextId_pos : 0 < s.nextId

/-! ## Lookups -/

theorem mem_ids {s : Store} {id : AtomId} : id ∈ s.ids ↔ ∃ a ∈ s.atoms, a.id = id := by
  simp [ids]

theorem mem_idsWhere {s : Store} {test : Atom → Bool} {id : AtomId} :
    id ∈ s.idsWhere test ↔ ∃ a ∈ s.atoms, test a = true ∧ a.id = id := by
  simp [idsWhere, and_assoc]

theorem id_of_get? {s : Store} {id : AtomId} {a : Atom} (h : s.get? id = some a) : a.id = id := by
  unfold get? at h
  simpa using List.find?_some h

theorem get?_some_iff {s : Store} (h : s.ids.Pairwise (· < ·)) {id : AtomId} {a : Atom} :
    s.get? id = some a ↔ a ∈ s.atoms ∧ a.id = id := by
  constructor
  · intro hf
    exact ⟨List.mem_of_find?_eq_some hf, id_of_get? hf⟩
  · rintro ⟨ha, rfl⟩
    unfold get?
    unfold ids at h
    generalize s.atoms = atoms at h ha
    induction atoms with
    | nil => cases ha
    | cons c cs ih =>
      rw [List.map_cons, List.pairwise_cons] at h
      rcases List.mem_cons.1 ha with rfl | ha
      · simp
      · have hlt : c.id < a.id := h.1 a.id (List.mem_map_of_mem ha)
        have hne : ¬ c.id = a.id := Nat.ne_of_lt hlt
        rw [List.find?_cons_of_neg (by simpa using hne)]
        exact ih h.2 ha

theorem contains_iff {s : Store} {id : AtomId} : s.contains id = true ↔ id ∈ s.ids := by
  unfold contains get?
  rw [List.find?_isSome]
  simp [ids]

theorem ascending_idsWhere {s : Store} (h : s.ids.Pairwise (· < ·)) (test : Atom → Bool) :
    (s.idsWhere test).Pairwise (· < ·) :=
  h.sublist (List.filter_sublist.map _)

theorem hasKind_iff {s : Store} (h : s.ids.Pairwise (· < ·)) {k : Kind} {id : AtomId} :
    s.hasKind k id = true ↔ ∃ a ∈ s.atoms, a.id = id ∧ a.kind = k := by
  unfold hasKind
  cases hg : s.get? id with
  | none =>
    simp only [Bool.false_eq_true, false_iff]
    rintro ⟨a, ha, rfl, _⟩
    rw [(get?_some_iff h).2 ⟨ha, rfl⟩] at hg
    cases hg
  | some a =>
    obtain ⟨ha, hid⟩ := (get?_some_iff h).1 hg
    constructor
    · intro hk
      exact ⟨a, ha, hid, by simpa using hk⟩
    · rintro ⟨c, hc, hcid, hk⟩
      have : s.get? id = some c := (get?_some_iff h).2 ⟨hc, hcid⟩
      obtain rfl : a = c := Option.some.inj (hg.symm.trans this)
      simpa using hk

/-! ## Indexing an atom -/

theorem ids_foldl_push (refs : List AtomId) (hn : refs.Nodup) (ix : Index AtomId) (id k : AtomId) :
    (refs.foldl (fun ix ref => ix.push ref id) ix).ids k =
      if k ∈ refs then ix.ids k ++ [id] else ix.ids k := by
  induction refs generalizing ix with
  | nil => simp
  | cons r rs ih =>
    obtain ⟨hr, hrs⟩ := List.nodup_cons.1 hn
    rw [List.foldl_cons, ih hrs, Index.ids_push]
    by_cases hk : r = k
    · subst hk
      simp [hr]
    · simp [hk, Ne.symm hk]

theorem atoms_index (s : Store) (a : Atom) : (s.index a).atoms = s.atoms ++ [a] := by
  unfold index
  cases a.form <;> rfl

theorem ids_index (s : Store) (a : Atom) : (s.index a).ids = s.ids ++ [a.id] := by
  simp [ids, atoms_index]

theorem idsWhere_index (s : Store) (a : Atom) (test : Atom → Bool) :
    (s.index a).idsWhere test = s.idsWhere test ++ if test a then [a.id] else [] := by
  unfold idsWhere
  rw [atoms_index, List.filter_append, List.map_append]
  cases h : test a <;> simp [h]

theorem named_index (s : Store) (a : Atom) (name : String) :
    (s.index a).named name = s.named name ++ if a.name? = some name then [a.id] else [] := by
  unfold index named Atom.name?
  cases a.form with
  | node k n =>
    simp only [Index.ids_push, Option.some_inj]
    split
    · next h => rw [h]
    · exact (List.append_nil _).symm
  | link k out => simp

theorem idsOf_index (s : Store) (a : Atom) (k : Kind) :
    (s.index a).idsOf k = s.idsOf k ++ if a.kind = k then [a.id] else [] := by
  have h : (s.index a).idsOf k = (s.byKind.push a.kind a.id).ids k := by
    unfold index idsOf
    cases a.form <;> rfl
  rw [h, Index.ids_push]
  unfold idsOf
  split
  · next h => rw [h]
  · exact (List.append_nil _).symm

theorem linksOver_index (s : Store) (a : Atom) (id : AtomId) :
    (s.index a).linksOver id = s.linksOver id ++ if a.outgoing.contains id then [a.id] else [] := by
  unfold index linksOver Atom.outgoing Form.outgoing
  cases a.form with
  | node k n => simp
  | link k out =>
    dsimp only
    rw [ids_foldl_push _ (nodup_distinct out)]
    simp only [mem_distinct, List.contains_iff_mem]
    split <;> simp

theorem structure_index (s : Store) (a : Atom) (k : LinkKind) (out : List AtomId) :
    (s.index a).byStructure.ids (k, out) =
      s.byStructure.ids (k, out) ++ if a.form = .link k out then [a.id] else [] := by
  unfold index
  cases hf : a.form with
  | node k n => simp
  | link l o =>
    dsimp only
    rw [Index.ids_push]
    by_cases h : (l, o) = (k, out)
    · obtain ⟨rfl, rfl⟩ := Prod.mk.inj h
      simp
    · rw [if_neg h, if_neg fun h' => h (by injection h' with h1 h2; rw [h1, h2])]
      exact (List.append_nil _).symm

/-- Indexing an atom keeps the indexes true, whatever the atom is. -/
theorem Indexed.index {s : Store} (h : s.Indexed) (a : Atom) : (s.index a).Indexed where
  named_eq name := by rw [named_index, idsWhere_index, h.named_eq]; simp
  idsOf_eq k := by rw [idsOf_index, idsWhere_index, h.idsOf_eq]; simp
  linksOver_eq id := by rw [linksOver_index, idsWhere_index, h.linksOver_eq]
  structure_eq k out := by rw [structure_index, idsWhere_index, h.structure_eq]; simp

theorem indexed_empty : empty.Indexed where
  named_eq _ := rfl
  idsOf_eq _ := rfl
  linksOver_eq _ := rfl
  structure_eq _ _ := rfl

theorem inv_empty : empty.Inv where
  indexed := indexed_empty
  formed := ⟨List.Pairwise.nil, nofun, nofun, nofun, nofun, nofun⟩
  nextId_pos := Nat.one_pos

end Store

end Credence
