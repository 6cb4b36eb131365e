import Credence.Proofs.Store.Tree
/-!
# What a store says of itself

The table of atoms, the references between atoms and the four indexes of a reachable
store tell one story, whatever the calls were that led to it and whichever of them
failed: an index lists under a key the atoms that have it, each once and the oldest
first, and links refer to older atoms of the store, so a walk along references ends.
-/

namespace Credence.Store

/-! ## References as they are written -/

/-- Whether the references of every link, as they were written, name its children. -/
def Spelled (s : Store) : Prop := ∀ a ∈ s.atoms, List.Forall₂ Refers a.written a.outgoing

theorem Change.spelled {s s' : Store} (h : Change s s') (hs : s.Spelled) : s'.Spelled := by
  cases h with
  | insert hf hr ht hw =>
    intro a ha
    rw [atoms_inserted] at ha
    rcases List.mem_append.1 ha with ha | ha
    · exact hs a ha
    · obtain rfl := List.mem_singleton.1 ha
      exact hw
  | retruth id ht =>
    intro a ha
    rw [atoms_retruth] at ha
    obtain ⟨c, hc, rfl⟩ := List.mem_map.1 ha
    split
    · exact hs c hc
    · exact hs c hc

theorem Changes.spelled {s s' : Store} (h : Changes s s') (hs : s.Spelled) : s'.Spelled := by
  induction h with
  | refl => exact hs
  | tail _ h ih => exact h.spelled ih

/-- A copy keeps the atoms that it has as they are. -/
theorem Spelled.subset {s : Store} (hs : s.Spelled) (h : s.Inv) (ids : List AtomId) :
    (s.subset ids).Spelled := by
  have hc := closed_closure ids h.formed.ascending fun a ha ref href =>
    (h.formed.older a ha ref href).1
  intro a ha
  rw [atoms_subset] at ha
  exact hs a (hc.sublist.mem ha)

theorem Reachable.spelled {s : Store} (h : Reachable s) : s.Spelled := by
  induction h with
  | empty => exact nofun
  | add _ kind name outgoing truth ih => exact (changes_add _ kind name outgoing truth).spelled ih
  | setTruthValue _ ref truth ih => exact (changes_setTruthValue _ ref truth).spelled ih
  | assertValue _ p truth ih => exact (changes_assertValue _ p truth).spelled ih
  | assert _ p truth ht ih => exact (changes_assert _ p truth ht).spelled ih
  | ask _ question ih =>
    obtain ⟨tally, hs⟩ := run_ask _ question
    rw [hs]
    exact ih
  | snapshot h ih => exact ih.subset h.inv _
  | subset h ids ih => exact ih.subset h.inv ids

/-! ## Walks along references -/

/-- Whether an atom is among the children of a link. -/
def ChildOf (s : Store) (ref id : AtomId) : Prop := ∃ a ∈ s.atoms, a.id = id ∧ ref ∈ a.outgoing

theorem Inv.wellFounded_childOf {s : Store} (h : s.Inv) : WellFounded s.ChildOf := by
  refine Subrelation.wf (fun {ref id} hr => ?_) Nat.lt_wfRel.wf
  obtain ⟨a, ha, rfl, href⟩ := hr
  exact (h.formed.older a ha ref href).1

/-- The tree of an atom is made of the trees of its children, however deep these are. -/
theorem toPattern_eq {s : Store} (h : s.Inv) {a : Atom} (ha : a ∈ s.atoms) :
    s.toPattern a.id =
      match a.form with
      | .node k name => patternOfNode k name
      | .link k out => (out.mapM s.toPattern).map (.link (.link k)) := by
  cases hf : a.form with
  | node k name => exact toPattern_node h ha hf
  | link k out => exact toPattern_link h ha hf

/-! ## Indexes -/

/-- Whether a list holds the identifiers of the atoms with a property and no others, in ascending
order and each once. -/
structure Lists (s : Store) (ids : List AtomId) (P : Atom → Prop) : Prop where
  ascending : ids.Pairwise (· < ·)
  mem_iff : ∀ id, id ∈ ids ↔ ∃ a ∈ s.atoms, a.id = id ∧ P a

theorem lists_idsWhere {s : Store} (h : s.Inv) {test : Atom → Bool} {P : Atom → Prop}
    (ht : ∀ a, test a = true ↔ P a) : s.Lists (s.idsWhere test) P where
  ascending := ascending_idsWhere h.formed.ascending test
  mem_iff id := by
    rw [mem_idsWhere]
    exact exists_congr fun a => and_congr_right fun _ => by rw [ht, and_comm]

theorem name?_eq_some_iff {a : Atom} {name : String} :
    a.name? = some name ↔ ∃ k, a.form = .node k name := by
  unfold Atom.name?
  cases a.form with
  | node k n => simp
  | link k out => simp

/-! ## Consistency -/

/-- What the parts of a store say of each other. -/
structure Consistent (s : Store) : Prop where
  keyed : ∀ id a, s.get? id = some a ↔ a ∈ s.atoms ∧ a.id = id
  ascending : (s.atoms.map Atom.id).Pairwise (· < ·)
  numbered : ∀ a ∈ s.atoms, 1 ≤ a.id ∧ a.id ≤ s.nextId - 1
  older : ∀ a ∈ s.atoms, ∀ ref ∈ a.outgoing, ref < a.id ∧ ∃ c ∈ s.atoms, c.id = ref
  spelled : ∀ a ∈ s.atoms, List.Forall₂ Refers a.written a.outgoing
  grounded : WellFounded s.ChildOf
  rendered : ∀ a ∈ s.atoms, s.toPattern a.id =
    match a.form with
    | .node k name => patternOfNode k name
    | .link k out => (out.mapM s.toPattern).map (.link (.link k))
  arity : ∀ a ∈ s.atoms, ∀ k out, a.form = .link k out → k.accepts out.length = true
  name : ∀ a ∈ s.atoms, ∀ k name, a.form = .node k name → name ≠ ""
  byName : ∀ name, s.Lists (s.byName.ids name) fun a => ∃ k, a.form = .node k name
  byKind : ∀ k, s.Lists (s.byKind.ids k) fun a => a.kind = k
  incoming : ∀ id, s.Lists (s.incoming.ids id) fun a => id ∈ a.outgoing
  byStructure : ∀ k out, s.Lists (s.byStructure.ids (k, out)) fun a => a.form = .link k out

/-- Every reachable store is consistent. -/
theorem Reachable.consistent {s : Store} (h : Reachable s) : s.Consistent := by
  have hinv := h.inv
  obtain ⟨⟨hnamed, hkinds, hlinks, hstructure⟩, ⟨hasc, hpos, hbelow, holder, hfits, _⟩, _⟩ := h.inv
  refine ⟨fun id a => get?_some_iff hasc, hasc, fun a ha => ?_, fun a ha ref href => ?_,
    h.spelled, hinv.wellFounded_childOf, fun a ha => toPattern_eq hinv ha, fun a ha k out hf => ?_,
    fun a ha k name hf => ?_, fun name => ?_, fun k => ?_, fun id => ?_, fun k out => ?_⟩
  · exact ⟨hpos a ha, Nat.le_sub_one_of_lt (hbelow a ha)⟩
  · obtain ⟨hlt, hin⟩ := holder a ha ref href
    exact ⟨hlt, mem_ids.1 hin⟩
  · have := hfits a ha
    rwa [hf] at this
  · have := hfits a ha
    rw [hf] at this
    rintro rfl
    cases this
  · show s.Lists (s.named name) _
    rw [hnamed]
    exact lists_idsWhere hinv fun a => by rw [decide_eq_true_eq, name?_eq_some_iff]
  · show s.Lists (s.idsOf k) _
    rw [hkinds]
    exact lists_idsWhere hinv fun a => decide_eq_true_iff
  · show s.Lists (s.linksOver id) _
    rw [hlinks]
    exact lists_idsWhere hinv fun a => List.contains_iff_mem
  · rw [hstructure]
    exact lists_idsWhere hinv fun a => decide_eq_true_iff

/-- A list that holds one node twice, and the node of a link that was refused, in a copy. -/
def repeated : Store :=
  let node (name : String) : Pattern := .node (.node .concept) name
  let s := ((assertValue (.link (.link .list) [node "a", node "a"]) .null).run.run empty).2
  (((assertValue (.link (.link .inheritance) [node "b"]) .null).run.run s).2).subset [2, 3]

theorem reachable_repeated : Reachable repeated :=
  ((Reachable.empty.assertValue _ .null).assertValue _ .null).subset [2, 3]

theorem consistent_repeated : Reachable repeated ∧ repeated.Consistent :=
  ⟨reachable_repeated, Reachable.consistent reachable_repeated⟩

example : repeated.ids = [1, 2, 3] ∧ repeated.incoming.ids 1 = [2] ∧
    repeated.byName.ids "b" = [3] := by
  decide +kernel

end Credence.Store
