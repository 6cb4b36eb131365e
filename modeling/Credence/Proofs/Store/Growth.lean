import Credence.Proofs.Store.Tree
/-!
# What asserting a tree adds

Asserting a tree stores an atom for every part that is not there yet, with the usual
truth value, and one for its root with the given one. No atom changes its tree, no
truth value but that of the root changes, and a store that tells its atoms apart by
their trees still does.
-/

namespace Credence.Store

open Pattern

variable {s s' : Store}

/-! ## Finding atoms by their form -/

theorem exists_of_findNode (h : s.Inv) {k : NodeKind} {name : String} {id : AtomId}
    (hf : s.findNode k name = some id) : ∃ a ∈ s.atoms, a.id = id ∧ a.form = .node k name := by
  unfold findNode at hf
  have hkind := List.find?_some hf
  have hname := List.mem_of_find?_eq_some hf
  rw [h.indexed.named_eq] at hname
  obtain ⟨a, ha, hn, rfl⟩ := mem_idsWhere.1 hname
  obtain ⟨c, hc, hid, hk⟩ := (hasKind_iff h.formed.ascending).1 hkind
  obtain rfl : c = a := Option.some.inj ((get?_eq_some h hc).symm.trans (hid ▸ get?_eq_some h ha))
  refine ⟨c, ha, rfl, ?_⟩
  obtain ⟨l, m, hform, heq⟩ := kind_eq_node hk rfl
  cases heq
  unfold Atom.name? at hn
  rw [hform] at hn ⊢
  exact congrArg _ (Option.some.inj (of_decide_eq_true hn))

theorem ne_form_of_findNode (h : s.Inv) {k : NodeKind} {name : String}
    (hf : s.findNode k name = none) : ∀ a ∈ s.atoms, a.form ≠ .node k name := by
  intro a ha hform
  unfold findNode at hf
  rw [h.indexed.named_eq] at hf
  have hname : a.name? = some name := by
    unfold Atom.name?
    rw [hform]
  have hkind : a.kind = .node k := by
    unfold Atom.kind
    rw [hform]
    rfl
  have hmem : a.id ∈ s.idsWhere fun a => a.name? = some name :=
    mem_idsWhere.2 ⟨a, ha, decide_eq_true hname, rfl⟩
  exact List.find?_eq_none.1 hf a.id hmem
    ((hasKind_iff h.formed.ascending).2 ⟨a, ha, rfl, hkind⟩)

theorem exists_of_findLink (h : s.Inv) {k : LinkKind} {out : List AtomId} {id : AtomId}
    (hf : s.findLink k out = some id) : ∃ a ∈ s.atoms, a.id = id ∧ a.form = .link k out := by
  unfold findLink at hf
  rw [h.indexed.structure_eq] at hf
  obtain ⟨a, ha, hform, rfl⟩ := mem_idsWhere.1 (List.mem_of_head? hf)
  exact ⟨a, ha, rfl, of_decide_eq_true hform⟩

theorem ne_form_of_findLink (h : s.Inv) {k : LinkKind} {out : List AtomId}
    (hf : s.findLink k out = none) : ∀ a ∈ s.atoms, a.form ≠ .link k out := by
  intro a ha hform
  unfold findLink at hf
  rw [h.indexed.structure_eq, List.head?_eq_none_iff] at hf
  have hmem : a.id ∈ s.idsWhere fun a => a.form = .link k out :=
    mem_idsWhere.2 ⟨a, ha, decide_eq_true hform, rfl⟩
  rw [hf] at hmem
  cases hmem

/-! ## Trees in a larger store -/

/-- The tree that a form over atoms of a store stands for. -/
def treeOfForm (s : Store) : Form → Pattern
  | .node k name => .node (.node k) name
  | .link k out => .link (.link k) (out.map s.treeOf)

theorem treeOf_eq_form (h : s.Inv) (hp : s.Plain) {a : Atom} (ha : a ∈ s.atoms) :
    s.treeOf a.id = s.treeOfForm a.form := by
  cases hf : a.form with
  | node k name => exact treeOf_node h hp ha hf
  | link k out => exact treeOf_link h hp ha hf

theorem treeOfForm_congr {form : Form} (hs : ∀ ref ∈ form.outgoing, s'.treeOf ref = s.treeOf ref) :
    s'.treeOfForm form = s.treeOfForm form := by
  cases form with
  | node k name => rfl
  | link k out => exact congrArg _ (List.map_congr_left hs)

/-- Atoms that keep their identifiers and forms keep their trees. -/
theorem treeOf_eq_of_forms (h : s.Inv) (hp : s.Plain) (h' : s'.Inv) (hp' : s'.Plain)
    (hforms : ∀ a ∈ s.atoms, ∃ c ∈ s'.atoms, c.id = a.id ∧ c.form = a.form) {id : AtomId}
    (hid : id ∈ s.ids) : s'.treeOf id = s.treeOf id := by
  induction id using Nat.strongRecOn with
  | ind id ih =>
    obtain ⟨a, ha, rfl⟩ := mem_ids.1 hid
    obtain ⟨c, hc, hci, hcf⟩ := hforms a ha
    rw [treeOf_eq_form h hp ha, ← hci, treeOf_eq_form h' hp' hc, hcf]
    refine treeOfForm_congr fun ref href => ?_
    obtain ⟨hlt, hin⟩ := h.formed.older a ha ref href
    exact ih ref hlt hin

theorem distinct_iff (h : s.Inv) (hp : s.Plain) :
    s.Distinct ↔ ∀ id ∈ s.ids, ∀ id' ∈ s.ids, s.treeOf id = s.treeOf id' → id = id' := by
  constructor
  · intro hd id hid id' hid' heq
    exact hd.eq_of_treeOf h hp hid hid' heq
  · intro hd id hid id' hid' heq
    rw [toPattern_eq_treeOf h hp hid, toPattern_eq_treeOf h hp hid'] at heq
    exact hd id hid id' hid' (Except.ok.inj heq)

/-- Where atoms are told apart by their trees, lists of atoms are too. -/
theorem Distinct.eq_of_map (hd : s.Distinct) (h : s.Inv) (hp : s.Plain) {xs ys : List AtomId}
    (hxs : ∀ id ∈ xs, id ∈ s.ids) (hys : ∀ id ∈ ys, id ∈ s.ids)
    (heq : xs.map s.treeOf = ys.map s.treeOf) : xs = ys := by
  induction xs generalizing ys with
  | nil => exact (List.map_eq_nil_iff.1 heq.symm).symm
  | cons x xs ih =>
    cases ys with
    | nil => cases heq
    | cons y ys =>
      obtain ⟨hx, hxs⟩ := List.forall_mem_cons.1 hxs
      obtain ⟨hy, hys⟩ := List.forall_mem_cons.1 hys
      obtain ⟨hxy, heq⟩ := List.cons.inj heq
      rw [hd.eq_of_treeOf h hp hx hy hxy, ih hxs hys heq]

/-! ## Growth -/

/-- Whether a store has all atoms of another, and besides only atoms under new identifiers whose
trees and truth values are as they should be. -/
structure Grows (J : Pattern → Truth → Prop) (s s' : Store) : Prop where
  inv : s'.Inv
  plain : s'.Plain
  distinct : s.Distinct → s'.Distinct
  old : ∀ a ∈ s.atoms, a ∈ s'.atoms
  new : ∀ a ∈ s'.atoms, a ∈ s.atoms ∨ a.id ∉ s.ids ∧ J (s'.treeOf a.id) a.truth

variable {J J' : Pattern → Truth → Prop}

theorem grows_refl (h : s.Inv) (hp : s.Plain) : Grows J s s :=
  ⟨h, hp, id, fun _ ha => ha, fun _ ha => .inl ha⟩

theorem Grows.ids (g : Grows J s s') {id : AtomId} (hid : id ∈ s.ids) : id ∈ s'.ids := by
  obtain ⟨a, ha, rfl⟩ := mem_ids.1 hid
  exact mem_ids.2 ⟨a, g.old a ha, rfl⟩

theorem Grows.treeOf_eq (g : Grows J s s') (h : s.Inv) (hp : s.Plain) {id : AtomId}
    (hid : id ∈ s.ids) : s'.treeOf id = s.treeOf id :=
  treeOf_eq_of_forms h hp g.inv g.plain (fun a ha => ⟨a, g.old a ha, rfl, rfl⟩) hid

theorem Grows.mono (g : Grows J s s') (hJ : ∀ q t, J q t → J' q t) : Grows J' s s' :=
  ⟨g.inv, g.plain, g.distinct, g.old,
    fun a ha => (g.new a ha).imp_right fun hn => ⟨hn.1, hJ _ _ hn.2⟩⟩

theorem Grows.trans {u : Store} (g : Grows J s s') (g' : Grows J s' u) : Grows J s u := by
  refine ⟨g'.inv, g'.plain, fun hd => g'.distinct (g.distinct hd),
    fun a ha => g'.old a (g.old a ha), fun a ha => ?_⟩
  rcases g'.new a ha with hs | ⟨hid, hj⟩
  · refine (g.new a hs).imp_right fun hn => ⟨hn.1, ?_⟩
    rw [g'.treeOf_eq g.inv g.plain (mem_ids.2 ⟨a, hs, rfl⟩)]
    exact hn.2
  · exact .inr ⟨fun hin => hid (g.ids hin), hj⟩

/-! ## Storing an atom -/

section

variable {form : Form} {truth : Truth}

theorem nextId_not_mem (h : s.Inv) : s.nextId ∉ s.ids := by
  intro hin
  obtain ⟨a, ha, hid⟩ := mem_ids.1 hin
  have hlt := h.formed.below a ha
  rw [hid] at hlt
  exact Nat.lt_irrefl _ hlt

theorem Plain.inserted (hp : s.Plain) (hk : ∀ name, form ≠ .node .variable name)
    (written : List Value) : (s.inserted form truth written).Plain := by
  intro a ha hkind
  rw [atoms_inserted] at ha
  rcases List.mem_append.1 ha with ha | ha
  · exact hp a ha hkind
  · obtain rfl := List.mem_singleton.1 ha
    obtain ⟨l, m, hform, heq⟩ := kind_eq_node hkind rfl
    cases heq
    exact hk m hform

variable (h : s.Inv) (hp : s.Plain) {written : List Value}
  (h' : (s.inserted form truth written).Inv) (hp' : (s.inserted form truth written).Plain)

include h hp h' hp' in
theorem treeOf_inserted {id : AtomId} (hid : id ∈ s.ids) :
    (s.inserted form truth written).treeOf id = s.treeOf id := by
  refine treeOf_eq_of_forms h hp h' hp' (fun a ha => ⟨a, ?_, rfl, rfl⟩) hid
  rw [atoms_inserted]
  exact List.mem_append_left _ ha

include h hp h' hp' in
theorem treeOf_inserted_nextId (hr : ∀ ref ∈ form.outgoing, ref ∈ s.ids) :
    s.nextId ∈ (s.inserted form truth written).ids ∧
      (s.inserted form truth written).treeOf s.nextId = s.treeOfForm form := by
  have hlast : (⟨s.nextId, form, truth, written⟩ : Atom) ∈
      (s.inserted form truth written).atoms := by
    rw [atoms_inserted]
    exact List.mem_append_right _ (List.mem_singleton_self _)
  refine ⟨mem_ids.2 ⟨_, hlast, rfl⟩, (treeOf_eq_form h' hp' hlast).trans ?_⟩
  exact treeOfForm_congr fun ref href => treeOf_inserted h hp h' hp' (hr ref href)

include h hp h' hp' in
/-- An atom with a tree of its own is told apart from the others. -/
theorem Distinct.inserted (hd : s.Distinct) (hr : ∀ ref ∈ form.outgoing, ref ∈ s.ids)
    (hnew : ∀ a ∈ s.atoms, s.treeOf a.id ≠ s.treeOfForm form) :
    (s.inserted form truth written).Distinct := by
  obtain ⟨_, htree⟩ := treeOf_inserted_nextId h hp h' hp' hr
  have hother : ∀ id ∈ s.ids, (s.inserted form truth written).treeOf id ≠ s.treeOfForm form := by
    intro id hid
    obtain ⟨a, ha, rfl⟩ := mem_ids.1 hid
    rw [treeOf_inserted h hp h' hp' hid]
    exact hnew a ha
  refine (distinct_iff h' hp').2 fun id hid id' hid' heq => ?_
  rw [ids_inserted] at hid hid'
  -- Each of the two is an old atom or the new one.
  rcases List.mem_append.1 hid with hid | hid <;> rcases List.mem_append.1 hid' with hid' | hid'
  · rw [treeOf_inserted h hp h' hp' hid, treeOf_inserted h hp h' hp' hid'] at heq
    exact hd.eq_of_treeOf h hp hid hid' heq
  · rw [List.mem_singleton.1 hid', htree] at heq
    exact absurd heq (hother id hid)
  · rw [List.mem_singleton.1 hid, htree] at heq
    exact absurd heq.symm (hother id' hid')
  · rw [List.mem_singleton.1 hid, List.mem_singleton.1 hid']

end

/-- Storing an atom with a tree of its own. -/
theorem grows_inserted (h : s.Inv) (hp : s.Plain) {form : Form} {truth : Truth} (hf : form.Fits)
    (hr : ∀ ref ∈ form.outgoing, ref ∈ s.ids) (ht : truth.IsValid) (written : List Value)
    (hk : ∀ name, form ≠ .node .variable name) (hJ : J (s.treeOfForm form) truth)
    (hnew : s.Distinct → ∀ a ∈ s.atoms, s.treeOf a.id ≠ s.treeOfForm form) :
    Grows J s (s.inserted form truth written) ∧
      s.nextId ∈ (s.inserted form truth written).ids ∧
      (s.inserted form truth written).treeOf s.nextId = s.treeOfForm form := by
  have h' := h.inserted hf hr ht written
  have hp' : (s.inserted form truth written).Plain := hp.inserted hk written
  obtain ⟨hin, htree⟩ := treeOf_inserted_nextId h hp h' hp' hr
  refine ⟨⟨h', hp', fun hd => hd.inserted h hp h' hp' hr (hnew hd), fun a ha => ?_, fun a ha => ?_⟩,
    hin, htree⟩
  · rw [atoms_inserted]
    exact List.mem_append_left _ ha
  · rw [atoms_inserted] at ha
    rcases List.mem_append.1 ha with ha | ha
    · exact .inl ha
    · obtain rfl := List.mem_singleton.1 ha
      refine .inr ⟨nextId_not_mem h, ?_⟩
      rw [htree]
      exact hJ

/-! ## Storing a tree -/

theorem run_bind_ok {α β : Type} {x : StoreM α} {f : α → StoreM β} {b : β}
    (hrun : (x >>= f).run.run s = (.ok b, s')) :
    ∃ a u, x.run.run s = (.ok a, u) ∧ (f a).run.run u = (.ok b, s') := by
  rw [run_bind] at hrun
  split at hrun
  · next a u hx => exact ⟨a, u, hx, hrun⟩
  · cases hrun

theorem isValid_getD {truth : Option Truth} (ht : ∀ t, truth = some t → t.IsValid) :
    (truth.getD .default).IsValid := by
  cases truth with
  | none => exact Truth.isValid_default
  | some t => exact ht t rfl

/-- Whether a truth value is what a tree gets as the root of an asserted tree or as a part of it. -/
def Assigned (p : Pattern) (t : Truth) (q : Pattern) (u : Truth) : Prop :=
  q = p ∧ u = t ∨ Part q p ∧ u = .default

/-- A node that is not found has a tree of its own, and a new atom for it is all that changes. -/
theorem grows_addNode {k : NodeKind} (hk : k ≠ .variable) {name : String} {t : Truth}
    (ht : t.IsValid) (h : s.Inv) (hp : s.Plain) (hnone : s.findNode k name = none) {id : AtomId}
    (hrun : (addNode k name t).run.run s = (.ok id, s')) :
    Grows (Assigned (.node (.node k) name) t) s s' ∧ id ∈ s'.ids ∧
      s'.treeOf id = .node (.node k) name := by
  rw [run_addNode] at hrun
  split at hrun
  · cases hrun
  · next hname =>
    cases hrun
    have hfits : (Form.node k name).Fits := Bool.eq_false_iff.2 hname
    refine grows_inserted h hp hfits nofun ht [] (fun m hm => hk (Form.node.inj hm).1)
      (.inl ⟨rfl, rfl⟩) fun _ a ha htree => ?_
    obtain ⟨c, hc, hkind, hn⟩ := node_of_treeOf h hp (mem_ids.2 ⟨a, ha, rfl⟩) htree
    obtain ⟨l, m, hform, heq⟩ := kind_eq_node hkind rfl
    cases heq
    unfold Atom.name? at hn
    rw [hform] at hn
    cases hn
    exact ne_form_of_findNode h hnone c ((get?_some_iff h.formed.ascending).1 hc).1 hform

/-- A link over the atoms of its children that is not found has a tree of its own, if atoms are
told apart by their trees. -/
theorem ne_treeOf_of_findLink (h : s.Inv) (hp : s.Plain) (hd : s.Distinct) {k : LinkKind}
    {ids : List AtomId} (hids : ∀ id ∈ ids, id ∈ s.ids) (hnone : s.findLink k ids = none) :
    ∀ a ∈ s.atoms, s.treeOf a.id ≠ s.treeOfForm (.link k ids) := by
  intro a ha heq
  obtain ⟨c, hc, hkind, hout, hrefs⟩ := link_of_treeOf h hp (mem_ids.2 ⟨a, ha, rfl⟩) heq
  obtain ⟨l, out, hform, hl⟩ := kind_eq_link hkind rfl
  cases hl
  have hcout : c.outgoing = out := by
    unfold Atom.outgoing
    rw [hform]
    rfl
  rw [hcout] at hout hrefs
  rw [hd.eq_of_map h hp hrefs hids hout] at hform
  exact ne_form_of_findLink h hnone c ((get?_some_iff h.formed.ascending).1 hc).1 hform

theorem grows_addLink {k : LinkKind} {cs : List Pattern} {t : Truth} (ht : t.IsValid) (h : s.Inv)
    (hp : s.Plain) {ids : List AtomId} (hids : ∀ id ∈ ids, id ∈ s.ids)
    (htrees : ids.map s.treeOf = cs) (hnone : s.findLink k ids = none) {id : AtomId}
    (hrun : (addLink k ids t).run.run s = (.ok id, s')) :
    Grows (Assigned (.link (.link k) cs) t) s s' ∧ id ∈ s'.ids ∧
      s'.treeOf id = .link (.link k) cs := by
  have htree : s.treeOfForm (.link k ids) = .link (.link k) cs := congrArg _ htrees
  unfold addLink at hrun
  rw [run_addLinkWritten] at hrun
  split at hrun
  · next hk =>
    split at hrun
    · cases hrun
    · cases hrun
      have hfits : (Form.link k ids).Fits := hk
      have hroot : Assigned (.link (.link k) cs) t (s.treeOfForm (.link k ids)) t :=
        .inl ⟨htree, rfl⟩
      obtain ⟨g, hin, hroot⟩ := grows_inserted h hp hfits hids ht
        (ids.map fun id => .int (Int.ofNat id)) (fun _ hform => Form.noConfusion hform) hroot
        fun hd => ne_treeOf_of_findLink h hp hd hids hnone
      exact ⟨g, hin, hroot.trans htree⟩
  · cases hrun

mutual

/-- Storing a tree adds its root with the given truth value and its parts with the usual one, as
far as they are not there. -/
theorem grows_ensure (truth : Option Truth) (ht : ∀ t, truth = some t → t.IsValid) {p : Pattern}
    (hg : p.Grammatical) {s s' : Store} (h : s.Inv) (hp : s.Plain) {id : AtomId}
    (hrun : (ensure truth p).run.run s = (.ok id, s')) :
    Grows (Assigned p (truth.getD .default)) s s' ∧ id ∈ s'.ids ∧ s'.treeOf id = p := by
  cases p with
  | var v =>
    unfold ensure at hrun
    cases hrun
  | node k name =>
    cases hg with
    | @node k hk name =>
      unfold ensure at hrun
      rw [run_get_bind] at hrun
      split at hrun
      · next hfound =>
        rw [run_pure] at hrun
        cases hrun
        obtain ⟨a, ha, rfl, hform⟩ := exists_of_findNode h hfound
        exact ⟨grows_refl h hp, mem_ids.2 ⟨a, ha, rfl⟩, treeOf_node h hp ha hform⟩
      · next hnone => exact grows_addNode hk (isValid_getD ht) h hp hnone hrun
  | link k cs =>
    cases hg with
    | @link k cs hcs =>
      unfold ensure at hrun
      obtain ⟨ids, u, hlist, hrun⟩ := run_bind_ok hrun
      obtain ⟨g, hids, htrees⟩ := grows_ensureList hcs h hp hlist
      -- The children are parts of the tree, so they get the usual truth value.
      have hparts : Grows (Assigned (.link (.link k) cs) (truth.getD .default)) s u := by
        refine g.mono fun q t hq => .inr ⟨?_, hq.2⟩
        obtain ⟨c, hc, rfl | hpart⟩ := hq.1
        · exact .child _ hc
        · exact .deeper _ hc hpart
      rw [run_get_bind] at hrun
      split at hrun
      · next hfound =>
        rw [run_pure] at hrun
        cases hrun
        obtain ⟨a, ha, rfl, hform⟩ := exists_of_findLink g.inv hfound
        refine ⟨hparts, mem_ids.2 ⟨a, ha, rfl⟩, ?_⟩
        rw [treeOf_link g.inv g.plain ha hform, htrees]
      · next hnone =>
        obtain ⟨g', hin, hroot⟩ :=
          grows_addLink (isValid_getD ht) g.inv g.plain hids htrees hnone hrun
        exact ⟨hparts.trans g', hin, hroot⟩

theorem grows_ensureList {cs : List Pattern} (hg : ∀ c ∈ cs, c.Grammatical) {s s' : Store}
    (h : s.Inv) (hp : s.Plain) {ids : List AtomId}
    (hrun : (ensureList cs).run.run s = (.ok ids, s')) :
    Grows (fun q t => (∃ c ∈ cs, q = c ∨ Part q c) ∧ t = .default) s s' ∧
      (∀ id ∈ ids, id ∈ s'.ids) ∧ ids.map s'.treeOf = cs := by
  cases cs with
  | nil =>
    unfold ensureList at hrun
    rw [run_pure] at hrun
    cases hrun
    exact ⟨grows_refl h hp, List.forall_mem_nil _, rfl⟩
  | cons c cs =>
    obtain ⟨hc, hcs⟩ := List.forall_mem_cons.1 hg
    unfold ensureList at hrun
    obtain ⟨id, u, hfirst, hrun⟩ := run_bind_ok hrun
    obtain ⟨rest, w, hrest, hrun⟩ := run_bind_ok hrun
    rw [run_pure] at hrun
    cases hrun
    obtain ⟨g, hid, htree⟩ := grows_ensure none nofun hc h hp hfirst
    obtain ⟨g', hids, htrees⟩ := grows_ensureList hcs g.inv g.plain hrest
    refine ⟨(g.mono fun q t hq => ?_).trans (g'.mono fun q t hq => ?_),
      List.forall_mem_cons.2 ⟨g'.ids hid, hids⟩, ?_⟩
    · rcases hq with ⟨rfl, rfl⟩ | ⟨hpart, rfl⟩
      · exact ⟨⟨q, List.mem_cons_self .., .inl rfl⟩, rfl⟩
      · exact ⟨⟨c, List.mem_cons_self .., .inr hpart⟩, rfl⟩
    · obtain ⟨⟨d, hd, hq⟩, rfl⟩ := hq
      exact ⟨⟨d, List.mem_cons_of_mem _ hd, hq⟩, rfl⟩
    · rw [List.map_cons, g'.treeOf_eq g.inv g.plain hid, htree, htrees]

end

/-! ## Asserting a tree -/

theorem Plain.retruth (hp : s.Plain) (id : AtomId) (t : Truth) : (s.retruth id t).Plain := by
  intro a ha
  obtain ⟨c, hc, _, hform, _⟩ := mem_retruth ha
  unfold Atom.kind
  rw [hform]
  exact hp c hc

theorem treeOf_retruth (h : s.Inv) (hp : s.Plain) (root : AtomId) {t : Truth} (ht : t.IsValid)
    {id : AtomId} (hid : id ∈ s.ids) : (s.retruth root t).treeOf id = s.treeOf id := by
  refine treeOf_eq_of_forms h hp (h.retruth root ht) (hp.retruth root t) (fun a ha => ?_) hid
  refine ⟨_, List.mem_map_of_mem (f := fun a => if a.id = root then { a with truth := t } else a) ha,
    ?_⟩
  split <;> exact ⟨rfl, rfl⟩

theorem Distinct.retruth (hd : s.Distinct) (h : s.Inv) (hp : s.Plain) (root : AtomId) {t : Truth}
    (ht : t.IsValid) : (s.retruth root t).Distinct := by
  refine (distinct_iff (h.retruth root ht) (hp.retruth root t)).2 fun id hid id' hid' heq => ?_
  rw [ids_retruth] at hid hid'
  rw [treeOf_retruth h hp root ht hid, treeOf_retruth h hp root ht hid'] at heq
  exact hd.eq_of_treeOf h hp hid hid' heq

/-- What asserting a tree with a truth value does to a store. -/
structure Asserted (s s' : Store) (p : Pattern) (t : Truth) : Prop where
  inv : s'.Inv
  plain : s'.Plain
  distinct : s.Distinct → s'.Distinct
  kept : ∀ id ∈ s.ids, id ∈ s'.ids ∧ s'.treeOf id = s.treeOf id
  atoms : ∀ a ∈ s'.atoms, a ∈ s.atoms ∨ s'.treeOf a.id = p ∧ a.truth = t ∨
    a.id ∉ s.ids ∧ Part (s'.treeOf a.id) p ∧ a.truth = .default

theorem Grows.asserted {p : Pattern} {t : Truth} (g : Grows (Assigned p t) s s') (h : s.Inv)
    (hp : s.Plain) : Asserted s s' p t := by
  refine ⟨g.inv, g.plain, g.distinct, fun id hid => ⟨g.ids hid, g.treeOf_eq h hp hid⟩, fun a ha => ?_⟩
  rcases g.new a ha with hs | ⟨hid, hroot | hpart⟩
  · exact .inl hs
  · exact .inr (.inl hroot)
  · exact .inr (.inr ⟨hid, hpart⟩)

/-- Giving the root the truth value does no more. -/
theorem Asserted.retruth {p : Pattern} {t : Truth} (g : Asserted s s' p t) (ht : t.IsValid)
    {root : AtomId} (hroot : s'.treeOf root = p) (hin : root ∈ s'.ids) :
    Asserted s (s'.retruth root t) p t := by
  have hsame : ∀ id ∈ s'.ids, (s'.retruth root t).treeOf id = s'.treeOf id :=
    fun id hid => treeOf_retruth g.inv g.plain root ht hid
  refine ⟨g.inv.retruth root ht, g.plain.retruth root t,
    fun hd => (g.distinct hd).retruth g.inv g.plain root ht, fun id hid => ?_, fun a ha => ?_⟩
  · obtain ⟨hid', htree⟩ := g.kept id hid
    rw [ids_retruth, hsame id hid']
    exact ⟨hid', htree⟩
  · rw [atoms_retruth] at ha
    obtain ⟨c, hc, rfl⟩ := List.mem_map.1 ha
    split
    · next hcr =>
      refine .inr (.inl ⟨?_, rfl⟩)
      show (s'.retruth root t).treeOf c.id = p
      rw [hcr, hsame root hin, hroot]
    · rw [hsame c.id (mem_ids.2 ⟨c, hc, rfl⟩)]
      exact g.atoms c hc

/-- Asserting a tree gives its root the truth value, stores the parts that are missing, and leaves
everything else as it is. -/
theorem asserted_of_run {p : Pattern} (hg : p.Grammatical) {t : Truth} (ht : t.IsValid) (h : s.Inv)
    (hp : s.Plain) {root : AtomId} (hrun : (assert p (some t)).run.run s = (.ok root, s')) :
    Asserted s s' p t := by
  unfold assert at hrun
  dsimp only at hrun
  split at hrun
  · cases hrun
  · obtain ⟨id, u, hensure, hrun⟩ := run_bind_ok hrun
    obtain ⟨g, hin, htree⟩ := grows_ensure (some t) (fun t' ht' => Option.some.inj ht' ▸ ht) hg h hp
      hensure
    have hassert : Asserted s u p t := g.asserted h hp
    -- The root was there before or is new; only the former still has to get the truth value.
    obtain ⟨_, w, hsettle, hrun⟩ := run_bind_ok hrun
    rw [run_pure] at hrun
    cases hrun
    rw [run_settle] at hsettle
    cases hsettle
    split
    · exact hassert
    · split
      · exact hassert
      · exact hassert.retruth ht htree hin

end Credence.Store
