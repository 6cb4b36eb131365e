import Credence.Inference.Backward
import Credence.Proofs.Inference.Confidence
import Credence.Proofs.Search.Answers
import Credence.Proofs.Store.Solutions
import Credence.Proofs.Unification.Values
/-!
# Facts of a backward search

A stored fact proves a goal by binding each variable that the goal still holds to the
tree of an atom. Those variables are unbound until then, and a match binds each of
them once, so the bindings grow without cycles and the goal becomes the tree of the
fact.
-/

namespace Credence

open Pattern Substitution

namespace Backward

open Store

/-! ## Bindings of a match as trees -/

/-- What adding bindings of atoms to a substitution comes to. -/
structure Extension (s : Store) (es : List (String × AtomId)) (θ θ' : Substitution) : Prop where
  acyclic : θ'.Acyclic
  kinded : θ.Kinded → θ'.Kinded
  solves_iff : ∀ σ, Solves σ θ' ↔ Solves σ θ ∧ ∀ e ∈ es, σ e.1 = s.treeOf e.2
  bound : ∀ v, θ'.get? v ≠ none → θ.get? v ≠ none ∨ v ∈ es.map Prod.fst
  ground : ∀ v p, θ'.get? v = some p → θ.get? v = some p ∨ p.isGround = true

/-- Trees bring in no variables. -/
theorem Extension.over {s : Store} {es : List (String × AtomId)} {θ θ' : Substitution}
    (h : Extension s es θ θ') {V : String → Prop} (hθ : θ.Over V) (hes : ∀ e ∈ es, V e.1) :
    θ'.Over V := by
  refine ⟨fun v hv => ?_, fun v p hv w hw => ?_⟩
  · rcases h.bound v hv with hb | hmem
    · exact hθ.keys v hb
    · obtain ⟨e, he, rfl⟩ := List.mem_map.1 hmem
      exact hes e he
  · rcases h.ground v p hv with hb | hp
    · exact hθ.values v p hb w hw
    · exact absurd hw (isGround_iff.1 hp w)

theorem extension_fold {s : Store} (h : s.Inv) (hp : s.Plain) {es : List (String × AtomId)}
    (hn : (es.map Prod.fst).Nodup) (hids : ∀ e ∈ es, e.2 ∈ s.ids) {θ : Substitution}
    (hθ : θ.Acyclic) (hfree : ∀ e ∈ es, θ.get? e.1 = none) :
    ∃ θ', es.foldlM (fun θ e => (s.toPattern e.2).map fun p => θ.insert e.1 p) θ = .ok θ' ∧
      Extension s es θ θ' := by
  induction es generalizing θ with
  | nil => exact ⟨θ, rfl, hθ, id, fun σ => by simp, fun v hv => .inl hv, fun v p hv => .inl hv⟩
  | cons e es ih =>
    obtain ⟨hne, hn⟩ := List.nodup_cons.1 hn
    have hid := hids e (List.mem_cons_self ..)
    have he := hfree e (List.mem_cons_self ..)
    have hground := isGround_iff.1 (isGround_treeOf h hp hid)
    have hacyclic : Acyclic (θ.insert e.1 (s.treeOf e.2)) :=
      hθ.insert (fun v hv => absurd hv (hground v)) (hground e.1)
    -- The variables of a match differ, so the ones that are left stay unbound.
    have hfree' : ∀ d ∈ es, (θ.insert e.1 (s.treeOf e.2)).get? d.1 = none := by
      intro d hd
      rw [Table.get?_insert, if_neg]
      · exact hfree d (List.mem_cons_of_mem _ hd)
      · intro heq
        exact hne (heq ▸ List.mem_map_of_mem hd)
    obtain ⟨θ', hok, hext⟩ := ih hn (fun d hd => hids d (List.mem_cons_of_mem _ hd)) hacyclic hfree'
    refine ⟨θ', ?_, hext.acyclic, fun hk => ?_, fun σ => ?_, fun v hv => ?_, fun v p hv => ?_⟩
    · rw [List.foldlM_cons, toPattern_eq_treeOf h hp hid]
      exact hok
    · exact hext.kinded (hk.insert (wellKinded_treeOf h hp hid) e.1)
    · rw [hext.solves_iff, solves_insert_iff he, List.forall_mem_cons,
        subst_of_isGround (isGround_treeOf h hp hid), and_assoc]
    · rcases hext.bound v hv with hb | hmem
      · rw [Table.get?_insert] at hb
        split at hb
        · next heq => exact .inr (heq ▸ List.mem_cons_self ..)
        · exact .inl hb
      · exact .inr (List.mem_cons_of_mem _ hmem)
    · rcases hext.ground v p hv with hb | hp'
      · rw [Table.get?_insert] at hb
        split at hb
        · cases hb
          exact .inr (isGround_treeOf h hp hid)
        · exact .inl hb
      · exact .inr hp'

/-- A match binds variables of the goal. -/
theorem mem_occurrences_of_mem_scan {s : Store} {goal : Pattern} {m : Match}
    (hm : m ∈ s.scan goal .empty) {e : String × AtomId} (he : e ∈ m.bindings.entries) :
    e.1 ∈ goal.occurrences := by
  obtain ⟨_, hmatch⟩ := mem_scan.1 hm
  have hin : m.bindings.contains e.1 = true := by
    unfold Table.contains Table.get?
    rw [Table.find_of_mem (nodup_matchAtom (b := .empty) List.nodup_nil hmatch) he]
    rfl
  rcases ((isMatch_of_matchAtom hmatch).domain e.1).1 hin with hempty | hv
  · cases hempty
  · exact mem_vars.1 hv

/-- The bindings of a match can be added where the variables of the goal are unbound. -/
theorem extension_extend {s : Store} (h : s.Inv) (hp : s.Plain) {goal : Pattern} {m : Match}
    (hm : m ∈ s.scan goal .empty) {θ : Substitution} (hθ : θ.Acyclic) (hfree : θ.Resolved goal) :
    ∃ θ', extend s θ m.bindings = .ok θ' ∧ Extension s m.bindings.entries θ θ' := by
  obtain ⟨hid, hmatch⟩ := mem_scan.1 hm
  have hn : m.bindings.keys.Nodup := nodup_matchAtom (b := .empty) List.nodup_nil hmatch
  have hfound := isMatch_of_matchAtom hmatch
  have hocc : ∀ e ∈ m.bindings.entries, e.1 ∈ goal.occurrences :=
    fun e he => mem_occurrences_of_mem_scan hm he
  refine extension_fold h hp hn (fun e he => ?_) hθ fun e he => hfree e.1 (hocc e he)
  obtain ⟨x, hx, hmem⟩ := mem_ids_of_denotes h hid hfound.denotes (hocc e he)
  have hget : m.bindings.get? e.1 = some e.2 := Table.find_of_mem hn he
  rw [hget] at hx
  cases hx
  exact hmem

/-! ## Facts for a goal -/

/-- The facts tried for a goal are the first matches, in another order. -/
theorem facts_eq (pb : Problem) (h : pb.store.Inv) (goal : Pattern) :
    ∃ ms, pb.facts goal = .ok ms ∧
      ms.Perm ((pb.store.scan goal .empty).take pb.params.maxResults) := by
  have hscan : pb.store.matchesOf goal = .ok (pb.store.scan goal .empty) :=
    matchesFrom_eq_scan h goal (holds_empty _)
  unfold Problem.facts
  rw [hscan]
  exact ⟨_, rfl, List.mergeSort_perm _ _⟩

/-- Whether a stored atom has this tree and counts with this confidence. -/
def Problem.HasFact (pb : Problem) (t : Pattern) (c : Float) : Prop :=
  ∃ a ∈ pb.store.atoms, pb.store.toPattern a.id = .ok t ∧ c = pb.confidence a.id

theorem hasFact_of_mem {pb : Problem} (h : pb.store.Inv) (hp : pb.store.Plain) {id : AtomId}
    (hid : id ∈ pb.store.ids) : pb.HasFact (pb.store.treeOf id) (pb.confidence id) := by
  obtain ⟨a, ha, rfl⟩ := mem_ids.1 hid
  exact ⟨a, ha, toPattern_eq_treeOf h hp hid, rfl⟩

theorem Problem.HasFact.inUnit {pb : Problem} (h : pb.store.Inv) {t : Pattern} {c : Float}
    (hf : pb.HasFact t c) : Credence.inUnit c = true := by
  obtain ⟨a, ha, _, rfl⟩ := hf
  unfold Problem.confidence
  split
  · rw [get?_eq_some h ha]
    exact (h.formed.valid a ha).confidence
  · exact inUnit_one

theorem Problem.HasFact.isGround {pb : Problem} (h : pb.store.Inv) (hp : pb.store.Plain)
    {t : Pattern} {c : Float} (hf : pb.HasFact t c) : t.isGround = true := by
  obtain ⟨a, ha, ht, _⟩ := hf
  have hid : a.id ∈ pb.store.ids := mem_ids.2 ⟨a, ha, rfl⟩
  rw [toPattern_eq_treeOf h hp hid] at ht
  cases ht
  exact isGround_treeOf h hp hid

end Backward

end Credence
