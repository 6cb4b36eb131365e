import Credence.Proofs.Store.Transport
import Credence.Proofs.Unification.Values
/-!
# Trees that can be read back

A node of the kind of variables can be stored under any name, but is read back as the
variable of that name, which has to be one. What is read back, or instantiated over
stored atoms from what can be, can be read back in turn.
-/

namespace Credence

/-- Whether a pattern has nodes of the kinds of nodes, whose names can be read back, and links of
the kinds of links. -/
inductive Pattern.Legible : Pattern → Prop
  | var (v : String) : Legible (.var v)
  | node {k : NodeKind} {name : String} {p : Pattern} (h : Store.patternOfNode k name = .ok p) :
    Legible (.node (.node k) name)
  | link (k : LinkKind) {cs : List Pattern} (hcs : ∀ c ∈ cs, Legible c) :
    Legible (.link (.link k) cs)

namespace Pattern

/-- What the reader gives can be read back from a store. -/
theorem Grammatical.legible {p : Pattern} (h : p.Grammatical) : p.Legible := by
  induction h with
  | var v => exact .var v
  | @node k hk name =>
    refine .node (p := .node (.node k) name) ?_
    unfold Store.patternOfNode
    split
    · exact absurd rfl hk
    · rfl
  | link k _ ih => exact .link k ih

theorem Legible.part {p q : Pattern} (hp : p.Legible) (hq : Part q p) : q.Legible := by
  refine hq.inherit (fun k cs h => ?_) hp
  cases h with
  | link _ hcs => exact hcs

theorem hereditary_legible : Hereditary Legible where
  children h c hc := by
    cases h with
    | link k hcs => exact hcs c hc
  vars _ v _ := .var v
  instances {p σ} h := by
    induction h with
    | var v => exact fun hσ => hσ v (List.mem_singleton.2 rfl)
    | node h => exact fun _ => .node h
    | link k _ ih =>
      intro hσ
      unfold Pattern.subst
      rw [substList_eq_map]
      refine .link k fun c hc => ?_
      obtain ⟨d, hd, rfl⟩ := List.mem_map.1 hc
      exact ih d hd fun v hv => hσ v (mem_occurrencesList.2 ⟨d, hd, hv⟩)

end Pattern

namespace Store

open Pattern

variable {s : Store}

theorem legible_of_patternOfNode {k : NodeKind} {name : String} {p : Pattern}
    (h : patternOfNode k name = .ok p) : p.Legible := by
  have hnode := h
  unfold patternOfNode at h
  split at h
  · cases hv : ofVariable (.text name) with
    | error e =>
      rw [hv] at h
      cases h
    | ok q =>
      rw [hv] at h
      cases h
      exact (grammatical_of_ofVariable hv).legible
  · cases h
    exact .node hnode

theorem mem_ids_of_toPattern {id : AtomId} {p : Pattern} (hp : s.toPattern id = .ok p) :
    id ∈ s.ids := by
  by_contra hid
  have hnone : s.get? id = none :=
    Option.not_isSome_iff_eq_none.1 fun hsome => hid (contains_iff.1 hsome)
  unfold toPattern patternWithin at hp
  rw [hnone] at hp
  cases hp

theorem legible_of_toPattern (h : s.Inv) {id : AtomId} {p : Pattern}
    (hp : s.toPattern id = .ok p) : p.Legible := by
  refine h.induct (P := fun id => ∀ p, s.toPattern id = .ok p → p.Legible)
    (fun a ha k name hf p hp => ?_) (fun a ha k out hf hout p hp => ?_)
    (mem_ids_of_toPattern hp) p hp
  · rw [toPattern_node h ha hf] at hp
    exact legible_of_patternOfNode hp
  · rw [toPattern_link h ha hf] at hp
    obtain ⟨cs, hcs, rfl⟩ := map_eq_ok hp
    refine .link k fun d hd => ?_
    obtain ⟨ref, href, hread⟩ := exists_of_mem_forall₂ (forall₂_of_mapM hcs) hd
    exact (hout ref href).2 d hread

/-- What is instantiated with bound atoms can be read back if the pattern can. -/
theorem legible_of_instantiate (h : s.Inv) {b : Bindings} {p q : Pattern} (hp : p.Legible)
    (hq : s.instantiate p b = .ok q) : q.Legible := by
  obtain ⟨θ, hθ, rfl⟩ := map_eq_ok hq
  refine Substitution.Values.apply hereditary_legible (fun v t hv => ?_) hp
  obtain ⟨es, hes, rfl⟩ := map_eq_ok hθ
  obtain ⟨e, he, hmap⟩ := exists_of_mem_forall₂ (forall₂_of_mapM hes) (Table.mem_of_find hv)
  obtain ⟨u, hu, heq⟩ := map_eq_ok hmap
  cases heq
  exact legible_of_toPattern h hu

theorem readable_of_plain (hp : s.Plain) : s.Readable := by
  intro a ha k name hf
  have hk := hp.ne_variable ha hf
  refine ⟨.node (.node k) name, ?_⟩
  unfold patternOfNode
  split
  · exact absurd rfl hk
  · rfl

end Store

end Credence
