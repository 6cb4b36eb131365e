import Credence.Proofs.Store.Scan
import Credence.Proofs.Store.Tree
import Credence.Proofs.Substitution.Solution
import Credence.Proofs.Table
import Credence.Store.Conjunction
/-!
# Solutions of patterns

A match binds each variable of its pattern once, to a stored atom. A solution of
several patterns binds their variables throughout, and every pattern denotes the atom
of its place. Read as trees, the patterns become the trees of these atoms, and what is
instantiated with the bindings becomes its instance by trees.
-/

namespace Credence.Store

open Pattern Substitution

/-! ## What a match binds -/

mutual

/-- A match binds no variable twice. -/
theorem nodup_matchAtom {s : Store} {p : Pattern} {id : AtomId} {b b' : Bindings}
    (hb : b.keys.Nodup) (h : s.matchAtom p id b = some b') : b'.keys.Nodup := by
  cases p with
  | var v =>
    unfold matchAtom at h
    split at h
    · split at h
      · cases h
        exact hb
      · cases h
    · cases h
      exact Table.nodup_keys_insert hb v id
  | node k name =>
    unfold matchAtom at h
    split at h
    · split at h
      · cases h
        exact hb
      · cases h
    · cases h
  | link k cs =>
    unfold matchAtom at h
    split at h
    · split at h
      · exact nodup_matchSlots hb h
      · cases h
    · cases h

theorem nodup_matchSlots {s : Store} {cs : List Pattern} {ids : List AtomId} {b b' : Bindings}
    (hb : b.keys.Nodup) (h : s.matchSlots cs ids b = some b') : b'.keys.Nodup := by
  cases cs with
  | nil =>
    unfold matchSlots at h
    cases h
    exact hb
  | cons c cs =>
    cases ids with
    | nil =>
      unfold matchSlots at h
      cases h
    | cons id ids =>
      unfold matchSlots at h
      split at h
      · next b₁ hc => exact nodup_matchSlots (nodup_matchAtom hb hc) h
      · cases h

end

/-- Where variables stand for the trees of their atoms, a pattern is the tree of the atom it
matches. -/
theorem subst_of_matchAtom {s : Store} (h : s.Inv) (hp : s.Plain) {p : Pattern}
    (hk : p.WellKinded) {id : AtomId} {b : Bindings} (hm : s.matchAtom p id .empty = some b)
    {σ : Valuation} (hσ : ∀ e ∈ b.entries, σ e.1 = s.treeOf e.2) : p.subst σ = s.treeOf id := by
  have hmatch := isMatch_of_matchAtom hm
  rw [← hmatch.denotes.subst_treesOf h hp hk]
  refine subst_congr fun v hv => ?_
  have hin : b.contains v = true := (hmatch.domain v).2 (.inr (mem_vars.2 hv))
  obtain ⟨x, hx⟩ := Option.isSome_iff_exists.1 hin
  unfold treesOf
  rw [hx]
  exact hσ (v, x) (Table.mem_of_find hx)

mutual

/-- Whatever denotes a stored atom binds stored atoms. -/
theorem mem_ids_of_denotes {s : Store} (h : s.Inv) {b : Bindings} {p : Pattern} {id : AtomId}
    (hid : id ∈ s.ids) (hd : s.Denotes b p id) {v : String} (hv : v ∈ p.occurrences) :
    ∃ x, b.get? v = some x ∧ x ∈ s.ids := by
  cases p with
  | var w =>
    rw [List.mem_singleton.1 hv]
    exact ⟨id, hd, hid⟩
  | node k name => cases hv
  | link k cs =>
    unfold Denotes at hd
    obtain ⟨a, ha, _, hcs⟩ := hd
    obtain ⟨hmem, rfl⟩ := (get?_some_iff h.formed.ascending).1 ha
    exact mem_ids_of_denoteEach h (fun ref href => (h.formed.older a hmem ref href).2) hcs hv

theorem mem_ids_of_denoteEach {s : Store} (h : s.Inv) {b : Bindings} {cs : List Pattern}
    {ids : List AtomId} (hids : ∀ id ∈ ids, id ∈ s.ids) (hd : s.DenoteEach b cs ids) {v : String}
    (hv : v ∈ occurrencesList cs) : ∃ x, b.get? v = some x ∧ x ∈ s.ids := by
  cases cs with
  | nil => cases hv
  | cons c cs =>
    cases ids with
    | nil => exact absurd hd (by simp [DenoteEach])
    | cons id ids =>
      unfold DenoteEach at hd
      rcases List.mem_append.1 hv with hv | hv
      · exact mem_ids_of_denotes h (hids id (List.mem_cons_self ..)) hd.1 hv
      · exact mem_ids_of_denoteEach h (fun x hx => hids x (List.mem_cons_of_mem _ hx)) hd.2 hv

end

variable {s : Store}

theorem Holds.of_isMatch (h : s.Inv) {p : Pattern} {b b' : Bindings} (hb : s.Holds b)
    {id : AtomId} (hid : id ∈ s.ids) (hm : s.IsMatch p b b' id) : s.Holds b' := by
  intro v x hx
  have hin : b'.contains v = true := by
    unfold Table.contains
    rw [hx]
    rfl
  rcases (hm.domain v).1 hin with hold | hv
  · obtain ⟨y, hy⟩ := Option.isSome_iff_exists.1 hold
    have hsame := hm.extension v y hy
    rw [hx] at hsame
    cases hsame
    exact hb v x hy
  · obtain ⟨y, hy, hmem⟩ := mem_ids_of_denotes h hid hm.denotes (mem_vars.1 hv)
    rw [hx] at hy
    cases hy
    exact contains_iff.2 hmem

/-! ## Solutions -/

/-- What a solution of patterns that extends bindings is. -/
structure Solved (s : Store) (ps : List Pattern) (b : Bindings) (sol : Solution) : Prop where
  extension : b.Extends sol.bindings
  holds : s.Holds sol.bindings
  denotes : s.DenoteEach sol.bindings ps sol.atomIds
  stored : ∀ id ∈ sol.atomIds, id ∈ s.ids

/-- Every list of patterns has its solutions listed. -/
theorem solutions_ok (h : s.Inv) (ps : List Pattern) {b : Bindings} (hb : s.Holds b) :
    ∃ sols, s.solutions ps b = .ok sols := by
  induction ps generalizing b with
  | nil => exact ⟨_, rfl⟩
  | cons p ps ih =>
    unfold solutions
    rw [matchesFrom_eq_scan h p hb]
    have hlater : ∀ m ∈ s.scan p b, ∃ sols, ((s.solutions ps m.bindings).map fun sols =>
        sols.map fun sol => { sol with atomIds := m.atomId :: sol.atomIds }) = .ok sols := by
      intro m hm
      obtain ⟨hid, hmatch⟩ := mem_scan.1 hm
      obtain ⟨sols, hsols⟩ := ih (hb.of_isMatch h hid (isMatch_of_matchAtom hmatch))
      rw [hsols]
      exact ⟨_, rfl⟩
    obtain ⟨rests, hrests⟩ := exists_mapM_ok hlater
    exact ⟨rests.flatten, by simp only [bind, Except.bind, hrests]; rfl⟩

/-- A solution matches the first pattern and solves the others from there. -/
theorem mem_solutions_cons (h : s.Inv) {p : Pattern} {ps : List Pattern} {b : Bindings}
    (hb : s.Holds b) {sols : List Solution} (hrun : s.solutions (p :: ps) b = .ok sols)
    {sol : Solution} : sol ∈ sols ↔ ∃ m ∈ s.scan p b, ∃ rest, s.solutions ps m.bindings = .ok rest ∧
      ∃ later ∈ rest, { later with atomIds := m.atomId :: later.atomIds } = sol := by
  unfold solutions at hrun
  rw [matchesFrom_eq_scan h p hb] at hrun
  obtain ⟨rests, hrests, rfl⟩ := map_eq_ok (f := List.flatten) hrun
  have hall := forall₂_of_mapM hrests
  rw [List.mem_flatten]
  constructor
  · rintro ⟨found, hfound, hsol⟩
    obtain ⟨m, hm, hmap⟩ := exists_of_mem_forall₂ hall hfound
    obtain ⟨rest, hrest, rfl⟩ := map_eq_ok hmap
    exact ⟨m, hm, rest, hrest, List.mem_map.1 hsol⟩
  · rintro ⟨m, hm, rest, hrest, later, hlater, rfl⟩
    obtain ⟨found, hfound, hmap⟩ := exists_of_mem_forall₂ hall.flip hm
    rw [hrest] at hmap
    cases hmap
    exact ⟨_, hfound, List.mem_map.2 ⟨later, hlater, rfl⟩⟩

/-- Whatever is listed as a solution is one. -/
theorem solved_of_solutions (h : s.Inv) {ps : List Pattern} {b : Bindings} (hb : s.Holds b)
    {sols : List Solution} (hrun : s.solutions ps b = .ok sols) {sol : Solution}
    (hsol : sol ∈ sols) : s.Solved ps b sol := by
  induction ps generalizing b sols sol with
  | nil =>
    cases hrun
    rw [List.mem_singleton.1 hsol]
    exact ⟨.refl b, hb, trivial, List.forall_mem_nil _⟩
  | cons p ps ih =>
    obtain ⟨m, hm, rest, hrest, later, hlater, rfl⟩ := (mem_solutions_cons h hb hrun).1 hsol
    obtain ⟨hid, hmatch⟩ := mem_scan.1 hm
    have hfound := isMatch_of_matchAtom hmatch
    obtain ⟨hext, hholds, hdenotes, hstored⟩ := ih (hb.of_isMatch h hid hfound) hrest hlater
    exact ⟨hfound.extension.trans hext, hholds, ⟨hfound.denotes.mono hext, hdenotes⟩,
      List.forall_mem_cons.2 ⟨hid, hstored⟩⟩

/-- A solution binds the variables of the patterns and no others, and none of them twice. -/
theorem domain_of_solutions (h : s.Inv) {ps : List Pattern} {b : Bindings} (hb : s.Holds b)
    {sols : List Solution} (hrun : s.solutions ps b = .ok sols) {sol : Solution}
    (hsol : sol ∈ sols) (hn : b.keys.Nodup) : sol.bindings.keys.Nodup ∧
      ∀ v, sol.bindings.contains v = true ↔ b.contains v = true ∨ v ∈ occurrencesList ps := by
  induction ps generalizing b sols sol with
  | nil =>
    cases hrun
    rw [List.mem_singleton.1 hsol]
    exact ⟨hn, fun v => by simp [occurrencesList]⟩
  | cons p ps ih =>
    obtain ⟨m, hm, rest, hrest, later, hlater, rfl⟩ := (mem_solutions_cons h hb hrun).1 hsol
    obtain ⟨hid, hmatch⟩ := mem_scan.1 hm
    have hfound := isMatch_of_matchAtom hmatch
    obtain ⟨hnodup, hdomain⟩ :=
      ih (hb.of_isMatch h hid hfound) hrest hlater (nodup_matchAtom hn hmatch)
    refine ⟨hnodup, fun v => ?_⟩
    rw [hdomain v, hfound.domain v, mem_vars, or_assoc]
    exact or_congr_right List.mem_append.symm

/-- Wherever patterns denote stored atoms there is a solution that binds no more. -/
theorem exists_mem_solutions (h : s.Inv) {ps : List Pattern} {b b₁ : Bindings} (hb : s.Holds b)
    (he : b.Extends b₁) {ids : List AtomId} (hids : ∀ id ∈ ids, id ∈ s.ids)
    (hd : s.DenoteEach b₁ ps ids) {sols : List Solution} (hrun : s.solutions ps b = .ok sols) :
    ∃ sol ∈ sols, sol.atomIds = ids ∧ sol.bindings.Extends b₁ := by
  induction ps generalizing b ids sols with
  | nil =>
    cases hrun
    obtain rfl := List.length_eq_zero_iff.1 (length_of_denoteEach hd)
    exact ⟨_, List.mem_singleton_self _, rfl, he⟩
  | cons p ps ih =>
    cases ids with
    | nil => exact absurd hd (by simp [DenoteEach])
    | cons id ids =>
      unfold DenoteEach at hd
      obtain ⟨hid, hids⟩ := List.forall_mem_cons.1 hids
      obtain ⟨b', hmatch, he'⟩ := matchAtom_complete he hd.1
      have hb' := hb.of_isMatch h hid (isMatch_of_matchAtom hmatch)
      obtain ⟨rest, hrest⟩ := solutions_ok h ps hb'
      obtain ⟨later, hlater, rfl, hext⟩ := ih hb' he' hids hd.2 hrest
      exact ⟨_, (mem_solutions_cons h hb hrun).2
        ⟨⟨b', id⟩, mem_scan.2 ⟨hid, hmatch⟩, rest, hrest, later, hlater, rfl⟩, rfl, hext⟩

/-- Read as trees, solved patterns are the trees of their atoms. -/
theorem Solved.subst_eq (h : s.Inv) (hp : s.Plain) {ps : List Pattern}
    (hk : ∀ p ∈ ps, p.WellKinded) {b : Bindings} {sol : Solution} (hs : s.Solved ps b sol) :
    ps.map (subst (s.treesOf sol.bindings)) = sol.atomIds.map s.treeOf := by
  rw [← substList_eq_map]
  exact hs.denotes.subst_treesOf h hp (wellKindedList_iff.2 hk)

theorem Solved.isGround (h : s.Inv) (hp : s.Plain) {ps : List Pattern}
    (hk : ∀ p ∈ ps, p.WellKinded) {b : Bindings} {sol : Solution} (hs : s.Solved ps b sol) :
    ∀ p ∈ ps, (p.subst (s.treesOf sol.bindings)).isGround = true := by
  intro p hmem
  have htree := List.mem_map_of_mem (f := subst (s.treesOf sol.bindings)) hmem
  rw [hs.subst_eq h hp hk] at htree
  obtain ⟨id, hid, heq⟩ := List.mem_map.1 htree
  rw [← heq]
  exact isGround_treeOf h hp (hs.stored id hid)

/-! ## Instances -/

theorem find_of_forall₂ {es : List (String × AtomId)} {ts : List (String × Pattern)}
    (h : List.Forall₂
      (fun e t => (s.toPattern e.2).map (fun p => (e.1, p)) = .ok t) es ts) (v : String) :
    Table.find v ts = (Table.find v es).map s.treeOf := by
  induction h with
  | nil => rfl
  | @cons e t es ts he _ ih =>
    obtain ⟨p, hp, rfl⟩ := map_eq_ok he
    unfold Table.find
    by_cases hv : e.1 = v
    · rw [if_pos hv, if_pos hv, Option.map_some, treeOf_of_toPattern hp]
    · rw [if_neg hv, if_neg hv, ih]

/-- The trees of bindings bind the same variables to the trees of their atoms. -/
theorem get?_of_bindingTrees {b : Bindings} {θ : Substitution} (hrun : s.bindingTrees b = .ok θ)
    (v : String) : θ.get? v = (b.get? v).map s.treeOf := by
  obtain ⟨es, hes, rfl⟩ := map_eq_ok hrun
  exact find_of_forall₂ (forall₂_of_mapM hes) v

theorem grammatical_treesOf (h : s.Inv) (hp : s.Plain) {b : Bindings} (hb : s.Holds b)
    (v : String) : (s.treesOf b v).Grammatical := by
  unfold treesOf
  cases hv : b.get? v with
  | some id => exact grammatical_treeOf h hp (contains_iff.1 (hb v id hv))
  | none => exact .var v

/-- Instantiating with bound atoms is reading them as trees. -/
theorem eq_of_instantiate (h : s.Inv) (hp : s.Plain) {b : Bindings} (hb : s.Holds b)
    {p q : Pattern} (hrun : s.instantiate p b = .ok q) : q = p.subst (s.treesOf b) := by
  obtain ⟨θ, hθ, rfl⟩ := map_eq_ok hrun
  have hget := get?_of_bindingTrees hθ
  have hground : ∀ v t, θ.get? v = some t → t.isGround = true := by
    intro v t hv
    rw [hget v] at hv
    obtain ⟨id, hid, rfl⟩ := Option.map_eq_some_iff.1 hv
    exact isGround_treeOf h hp (contains_iff.1 (hb v id hid))
  have hacyclic : Acyclic θ :=
    ⟨fun _ => 0, fun v t hv w hw => absurd hw (isGround_iff.1 (hground v t hv) w)⟩
  rw [apply_eq_subst]
  refine subst_congr fun v _ => ?_
  unfold treesOf
  cases hv : b.get? v with
  | some id =>
    have hbound : θ.get? v = some (s.treeOf id) := by
      rw [hget v, hv]
      rfl
    rw [hacyclic.solves_value v _ hbound, subst_of_isGround (hground v _ hbound)]
  | none =>
    refine follow_of_resolved (fun w hw => ?_) _
    rw [List.mem_singleton.1 hw, hget v, hv]
    rfl

end Credence.Store
