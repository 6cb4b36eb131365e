import Credence.Proofs.Except
import Credence.Proofs.Pattern.Grammar
import Credence.Proofs.Store.Denotation
/-!
# Atoms as trees

In a store without variable nodes every atom is described by a ground tree. A pattern
denotes an atom exactly if its instance, with every variable replaced by the tree of
its atom, is the tree of the atom.
-/

namespace Credence.Store

open Pattern

variable {s : Store}

/-- A store without variable nodes. -/
def Plain (s : Store) : Prop := ∀ a ∈ s.atoms, a.kind ≠ .node .variable

theorem get?_eq_some (h : s.Inv) {a : Atom} (ha : a ∈ s.atoms) : s.get? a.id = some a :=
  (get?_some_iff h.formed.ascending).2 ⟨ha, rfl⟩

theorem older_of_link (h : s.Inv) {a : Atom} (ha : a ∈ s.atoms) {k : LinkKind} {out : List AtomId}
    (hf : a.form = .link k out) {ref : AtomId} (href : ref ∈ out) : ref < a.id ∧ ref ∈ s.ids := by
  refine h.formed.older a ha ref ?_
  unfold Atom.outgoing
  rw [hf]
  exact href

/-- What holds of the nodes of a store, and of each link over atoms that it holds of, holds of every
atom. -/
theorem Inv.induct (h : s.Inv) {P : AtomId → Prop}
    (hnode : ∀ a ∈ s.atoms, ∀ k name, a.form = .node k name → P a.id)
    (hlink : ∀ a ∈ s.atoms, ∀ k out, a.form = .link k out → (∀ ref ∈ out, ref ∈ s.ids ∧ P ref) →
      P a.id) {id : AtomId} (hid : id ∈ s.ids) : P id := by
  -- Links refer to older atoms, so the identifiers decrease.
  induction id using Nat.strongRecOn with
  | ind id ih =>
    obtain ⟨a, ha, rfl⟩ := mem_ids.1 hid
    cases hf : a.form with
    | node k name => exact hnode a ha k name hf
    | link k out =>
      refine hlink a ha k out hf fun ref href => ?_
      obtain ⟨hlt, hin⟩ := older_of_link h ha hf href
      exact ⟨hin, ih ref hlt hin⟩

/-- A copy of a part of a store has no other atoms. -/
theorem Plain.subset (hp : s.Plain) (h : s.Inv) (ids : List AtomId) : (s.subset ids).Plain := by
  intro a ha
  rw [atoms_subset] at ha
  have hc := closed_closure ids h.formed.ascending fun c hc ref href =>
    (h.formed.older c hc ref href).1
  exact hp a (hc.sublist.mem ha)

theorem Plain.ne_variable (hp : s.Plain) {a : Atom} (ha : a ∈ s.atoms) {k : NodeKind}
    {name : String} (hf : a.form = .node k name) : k ≠ .variable := by
  rintro rfl
  refine hp a ha ?_
  unfold Atom.kind
  rw [hf]
  rfl

/-- More depth than the identifier of an atom changes nothing. -/
theorem patternWithin_eq (h : s.Inv) {depth : Nat} {id : AtomId} (hd : id < depth) :
    s.patternWithin depth id = s.toPattern id := by
  unfold toPattern
  induction id using Nat.strongRecOn generalizing depth with
  | ind id ih =>
    obtain ⟨d, rfl⟩ := Nat.exists_eq_add_one_of_ne_zero (Nat.ne_zero_of_lt hd)
    unfold patternWithin
    cases hg : s.get? id with
    | none => rfl
    | some a =>
      obtain ⟨ha, rfl⟩ := (get?_some_iff h.formed.ascending).1 hg
      cases hf : a.form with
      | node k name => simp only [hf]
      | link k out =>
        simp only [hf]
        refine congrArg (Except.map (Pattern.link (.link k))) (mapM_congr fun ref href => ?_)
        have hlt := (older_of_link h ha hf href).1
        rw [ih ref hlt (Nat.lt_of_lt_of_le hlt (Nat.le_of_lt_succ hd)), ih ref hlt hlt]

theorem toPattern_node {a : Atom} (h : s.Inv) (ha : a ∈ s.atoms) {k : NodeKind} {name : String}
    (hf : a.form = .node k name) : s.toPattern a.id = patternOfNode k name := by
  unfold toPattern patternWithin
  rw [get?_eq_some h ha]
  simp only [hf]

theorem toPattern_link {a : Atom} (h : s.Inv) (ha : a ∈ s.atoms) {k : LinkKind} {out : List AtomId}
    (hf : a.form = .link k out) :
    s.toPattern a.id = (out.mapM s.toPattern).map (Pattern.link (.link k)) := by
  have hunfold : s.toPattern a.id = (out.mapM (s.patternWithin a.id)).map (Pattern.link (.link k)) := by
    unfold toPattern
    rw [patternWithin, get?_eq_some h ha]
    simp only [hf]
  rw [hunfold, mapM_congr fun ref href => patternWithin_eq h (older_of_link h ha hf href).1]

/-- The tree of an atom; some pattern if it has none. -/
def treeOf (s : Store) (id : AtomId) : Pattern :=
  match s.toPattern id with
  | .ok p => p
  | .error _ => default

theorem treeOf_of_toPattern {id : AtomId} {t : Pattern} (h : s.toPattern id = .ok t) :
    s.treeOf id = t := by
  unfold treeOf
  rw [h]

theorem toPattern_of_plain (h : s.Inv) (hp : s.Plain) {a : Atom} (ha : a ∈ s.atoms) {k : NodeKind}
    {name : String} (hf : a.form = .node k name) :
    s.toPattern a.id = .ok (.node (.node k) name) := by
  rw [toPattern_node h ha hf]
  have hk := hp.ne_variable ha hf
  unfold patternOfNode
  split
  · exact absurd rfl hk
  · rfl

/-- In a store without variable nodes every atom has a tree. -/
theorem toPattern_eq_treeOf (h : s.Inv) (hp : s.Plain) {id : AtomId} (hid : id ∈ s.ids) :
    s.toPattern id = .ok (s.treeOf id) := by
  refine h.induct (P := fun id => s.toPattern id = .ok (s.treeOf id)) (fun a ha k name hf => ?_)
    (fun a ha k out hf hout => ?_) hid
  · have hnode := toPattern_of_plain h hp ha hf
    rw [treeOf_of_toPattern hnode, hnode]
  · have hlink : s.toPattern a.id = .ok (.link (.link k) (out.map s.treeOf)) := by
      rw [toPattern_link h ha hf, mapM_ok fun ref href => (hout ref href).2]
      rfl
    rw [treeOf_of_toPattern hlink, hlink]

theorem treeOf_node (h : s.Inv) (hp : s.Plain) {a : Atom} (ha : a ∈ s.atoms) {k : NodeKind}
    {name : String} (hf : a.form = .node k name) : s.treeOf a.id = .node (.node k) name :=
  treeOf_of_toPattern (toPattern_of_plain h hp ha hf)

theorem treeOf_link (h : s.Inv) (hp : s.Plain) {a : Atom} (ha : a ∈ s.atoms) {k : LinkKind}
    {out : List AtomId} (hf : a.form = .link k out) :
    s.treeOf a.id = .link (.link k) (out.map s.treeOf) := by
  refine treeOf_of_toPattern ?_
  rw [toPattern_link h ha hf,
    mapM_ok fun ref href => toPattern_eq_treeOf h hp (older_of_link h ha hf href).2]
  rfl

theorem isGround_treeOf (h : s.Inv) (hp : s.Plain) {id : AtomId} (hid : id ∈ s.ids) :
    (s.treeOf id).isGround = true := by
  refine h.induct (P := fun id => (s.treeOf id).isGround = true) (fun a ha k name hf => ?_)
    (fun a ha k out hf hout => ?_) hid
  · rw [treeOf_node h hp ha hf]
    rfl
  · rw [treeOf_link h hp ha hf, isGround_iff]
    intro v hv
    unfold occurrences at hv
    obtain ⟨c, hc, hv⟩ := mem_occurrencesList.1 hv
    obtain ⟨ref, href, rfl⟩ := List.mem_map.1 hc
    exact isGround_iff.1 (hout ref href).2 v hv

theorem grammatical_treeOf (h : s.Inv) (hp : s.Plain) {id : AtomId} (hid : id ∈ s.ids) :
    (s.treeOf id).Grammatical := by
  refine h.induct (P := fun id => (s.treeOf id).Grammatical) (fun a ha k name hf => ?_)
    (fun a ha k out hf hout => ?_) hid
  · rw [treeOf_node h hp ha hf]
    exact .node (hp.ne_variable ha hf) name
  · rw [treeOf_link h hp ha hf]
    refine .link k fun c hc => ?_
    obtain ⟨ref, href, rfl⟩ := List.mem_map.1 hc
    exact (hout ref href).2

theorem wellKinded_treeOf (h : s.Inv) (hp : s.Plain) {id : AtomId} (hid : id ∈ s.ids) :
    (s.treeOf id).WellKinded := (grammatical_treeOf h hp hid).wellKinded

/-! ## Patterns as trees -/

/-- The trees of the bound atoms; an unbound variable stands for itself. -/
def treesOf (s : Store) (b : Bindings) : Valuation := fun v =>
  match b.get? v with
  | some id => s.treeOf id
  | none => .var v

theorem kind_eq_node {a : Atom} {k : Kind} (hk : a.kind = k) (hl : k.isLink = false) :
    ∃ l name, a.form = .node l name ∧ k = .node l := by
  subst hk
  unfold Atom.kind at *
  cases hf : a.form with
  | node l name => exact ⟨l, name, rfl, rfl⟩
  | link l out =>
    rw [hf] at hl
    cases hl

theorem kind_eq_link {a : Atom} {k : Kind} (hk : a.kind = k) (hl : k.isLink = true) :
    ∃ l out, a.form = .link l out ∧ k = .link l := by
  subst hk
  unfold Atom.kind at *
  cases hf : a.form with
  | node l name =>
    rw [hf] at hl
    cases hl
  | link l out => exact ⟨l, out, rfl, rfl⟩

mutual

/-- A pattern denotes only atoms whose tree is its instance under the bindings. -/
theorem Denotes.subst_treesOf (h : s.Inv) (hp : s.Plain) {b : Bindings} {p : Pattern}
    (hk : p.WellKinded) {id : AtomId} (hd : s.Denotes b p id) :
    p.subst (s.treesOf b) = s.treeOf id := by
  cases p with
  | var v =>
    unfold Denotes at hd
    show s.treesOf b v = _
    unfold treesOf
    rw [hd]
  | node k name =>
    unfold Denotes at hd
    obtain ⟨a, hg, hka, hn⟩ := hd
    obtain ⟨ha, rfl⟩ := (get?_some_iff h.formed.ascending).1 hg
    obtain ⟨l, m, hf, rfl⟩ := kind_eq_node hka hk
    rw [treeOf_node h hp ha hf]
    unfold Atom.name? at hn
    rw [hf] at hn
    rw [← Option.some.inj hn]
    rfl
  | link k cs =>
    unfold Denotes at hd
    unfold WellKinded at hk
    obtain ⟨a, hg, hka, hcs⟩ := hd
    obtain ⟨ha, rfl⟩ := (get?_some_iff h.formed.ascending).1 hg
    obtain ⟨l, out, hf, rfl⟩ := kind_eq_link hka hk.1
    have hout : a.outgoing = out := by
      unfold Atom.outgoing
      rw [hf]
      rfl
    rw [hout] at hcs
    rw [treeOf_link h hp ha hf]
    exact congrArg (Pattern.link (.link l)) (DenoteEach.subst_treesOf h hp hk.2 hcs)

theorem DenoteEach.subst_treesOf (h : s.Inv) (hp : s.Plain) {b : Bindings} {cs : List Pattern}
    (hk : WellKindedList cs) {ids : List AtomId} (hd : s.DenoteEach b cs ids) :
    substList (s.treesOf b) cs = ids.map s.treeOf := by
  cases cs with
  | nil =>
    cases ids with
    | nil => rfl
    | cons => exact absurd hd (by simp [DenoteEach])
  | cons c cs =>
    cases ids with
    | nil => exact absurd hd (by simp [DenoteEach])
    | cons id ids =>
      unfold DenoteEach at hd
      unfold WellKindedList at hk
      unfold substList
      rw [Denotes.subst_treesOf h hp hk.1 hd.1, DenoteEach.subst_treesOf h hp hk.2 hd.2]
      rfl

end

/-! ## Stores that tell their atoms apart -/

/-- Whether no two atoms have the same tree. -/
def Distinct (s : Store) : Prop :=
  ∀ id ∈ s.ids, ∀ id' ∈ s.ids, s.toPattern id = s.toPattern id' → id = id'

theorem Distinct.eq_of_treeOf (hd : s.Distinct) (h : s.Inv) (hp : s.Plain) {id id' : AtomId}
    (hid : id ∈ s.ids) (hid' : id' ∈ s.ids) (heq : s.treeOf id = s.treeOf id') : id = id' := by
  refine hd id hid id' hid' ?_
  rw [toPattern_eq_treeOf h hp hid, toPattern_eq_treeOf h hp hid', heq]

theorem node_of_treeOf (h : s.Inv) (hp : s.Plain) {id : AtomId} (hid : id ∈ s.ids) {k : Kind}
    {name : String} (ht : s.treeOf id = .node k name) :
    ∃ a, s.get? id = some a ∧ a.kind = k ∧ a.name? = some name := by
  obtain ⟨a, ha, rfl⟩ := mem_ids.1 hid
  refine ⟨a, get?_eq_some h ha, ?_⟩
  unfold Atom.kind Atom.name?
  cases hf : a.form with
  | node l m =>
    rw [treeOf_node h hp ha hf] at ht
    obtain ⟨rfl, rfl⟩ := Pattern.node.inj ht
    exact ⟨rfl, rfl⟩
  | link l out =>
    rw [treeOf_link h hp ha hf] at ht
    cases ht

theorem link_of_treeOf (h : s.Inv) (hp : s.Plain) {id : AtomId} (hid : id ∈ s.ids) {k : Kind}
    {ts : List Pattern} (ht : s.treeOf id = .link k ts) :
    ∃ a, s.get? id = some a ∧ a.kind = k ∧ a.outgoing.map s.treeOf = ts ∧
      ∀ ref ∈ a.outgoing, ref ∈ s.ids := by
  obtain ⟨a, ha, rfl⟩ := mem_ids.1 hid
  refine ⟨a, get?_eq_some h ha, ?_⟩
  cases hf : a.form with
  | node l m =>
    rw [treeOf_node h hp ha hf] at ht
    cases ht
  | link l out =>
    rw [treeOf_link h hp ha hf] at ht
    obtain ⟨rfl, rfl⟩ := Pattern.link.inj ht
    have hout : a.outgoing = out := by
      unfold Atom.outgoing
      rw [hf]
      rfl
    rw [hout]
    refine ⟨?_, rfl, fun ref href => (older_of_link h ha hf href).2⟩
    unfold Atom.kind
    rw [hf]
    rfl

/-- Whether bindings bind variables to atoms whose trees are their values. -/
def Reads (s : Store) (σ : Valuation) (b : Bindings) : Prop :=
  ∀ v id, b.get? v = some id → id ∈ s.ids ∧ σ v = s.treeOf id

theorem reads_empty (s : Store) (σ : Valuation) : s.Reads σ .empty := nofun

mutual

/-- A pattern matches every atom whose tree is an instance of it, unless two atoms have one tree: a
variable that comes again stands for the same atom, not for one with the same tree. -/
theorem matchAtom_of_instance (h : s.Inv) (hp : s.Plain) {σ : Valuation} {b : Bindings}
    (hb : s.Reads σ b) {p : Pattern} {id : AtomId} (hid : id ∈ s.ids)
    (ht : p.subst σ = s.treeOf id) :
    (∃ b', s.matchAtom p id b = some b' ∧ s.Reads σ b') ∨
      s.matchAtom p id b = none ∧ ¬ s.Distinct := by
  cases p with
  | var v =>
    have hv : σ v = s.treeOf id := ht
    unfold matchAtom
    split
    · next x hx =>
      obtain ⟨hxs, hxt⟩ := hb v x hx
      by_cases heq : x = id
      · exact .inl ⟨b, if_pos heq, hb⟩
      · exact .inr ⟨if_neg heq, fun hd => heq (hd.eq_of_treeOf h hp hxs hid (hxt.symm.trans hv))⟩
    · refine .inl ⟨_, rfl, fun w y hw => ?_⟩
      rw [Table.get?_insert] at hw
      split at hw
      · next hvw =>
        cases hw
        exact ⟨hid, hvw ▸ hv⟩
      · exact hb w y hw
  | node k name =>
    obtain ⟨a, hg, hk, hn⟩ := node_of_treeOf h hp hid ht.symm
    unfold matchAtom
    rw [hg]
    exact .inl ⟨b, if_pos ⟨hk, hn⟩, hb⟩
  | link k cs =>
    obtain ⟨a, hg, hk, hout, hrefs⟩ := link_of_treeOf h hp hid ht.symm
    have hlen : a.outgoing.length = cs.length := by
      rw [← List.length_map (f := s.treeOf), hout, substList_eq_map, List.length_map]
    unfold matchAtom
    rw [hg]
    dsimp only
    rw [if_pos ⟨hk, hlen⟩]
    exact matchSlots_of_instance h hp hb hrefs hout.symm

theorem matchSlots_of_instance (h : s.Inv) (hp : s.Plain) {σ : Valuation} {b : Bindings}
    (hb : s.Reads σ b) {cs : List Pattern} {ids : List AtomId} (hids : ∀ id ∈ ids, id ∈ s.ids)
    (ht : substList σ cs = ids.map s.treeOf) :
    (∃ b', s.matchSlots cs ids b = some b' ∧ s.Reads σ b') ∨
      s.matchSlots cs ids b = none ∧ ¬ s.Distinct := by
  cases cs with
  | nil =>
    unfold matchSlots
    exact .inl ⟨b, rfl, hb⟩
  | cons c cs =>
    cases ids with
    | nil => cases ht
    | cons id ids =>
      obtain ⟨hc, hcs⟩ := List.cons.inj ht
      unfold matchSlots
      rcases matchAtom_of_instance h hp hb (hids id (List.mem_cons_self ..)) hc with
        ⟨b₁, hb₁, hr₁⟩ | ⟨hnone, hd⟩
      · rw [hb₁]
        exact matchSlots_of_instance h hp hr₁ (fun x hx => hids x (List.mem_cons_of_mem _ hx)) hcs
      · rw [hnone]
        exact .inr ⟨rfl, hd⟩

end

end Credence.Store
