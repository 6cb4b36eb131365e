import Credence.Proofs.Store.Overlay
/-!
# Overlays of one copy

Two stores that grew from one copy may hold their atoms in different orders and under
different identifiers. If all trees have the same confidences in both, an old atom has
itself as counterpart and a new one the atom of the same tree: the map to counterparts
carries one store into the other, and looking for a tree finds equal confidences.
-/

namespace Credence.Store

open Pattern

variable {c s s' : Store}

/-- Whether all trees have the same confidences in two stores. -/
def Agrees (s s' : Store) : Prop := ∀ q, Option.Rel Level (s.rating q) (s'.rating q)

theorem rel_symm {r r' : Option Float} (h : Option.Rel Level r r') : Option.Rel Level r' r := by
  cases h with
  | some hl => exact .some hl.symm
  | none => exact .none

theorem Agrees.symm (h : Agrees s s') : Agrees s' s := fun q => rel_symm (h q)

theorem agrees_refl (h : s.Inv) : Agrees s s := by
  intro q
  cases hq : s.rating q with
  | none => exact .none
  | some x => exact .some (.refl (inUnit_of_rating h hq))

theorem Agrees.existing (h : Agrees s s') {q : Pattern} {id : AtomId} (hq : s.existing q = some id) :
    ∃ id', s'.existing q = some id' := by
  refine Option.ne_none_iff_exists'.1 fun hnone => ?_
  have hrel := h q
  rw [rating_eq_none_iff.2 hnone] at hrel
  generalize hr : s.rating q = r at hrel
  cases hrel
  rw [rating_eq_none_iff.1 hr] at hq
  cases hq

theorem Agrees.level (h : Agrees s s') {q : Pattern} {id id' : AtomId} {a a' : Atom}
    (hq : s.existing q = some id) (ha : s.get? id = some a) (hq' : s'.existing q = some id')
    (ha' : s'.get? id' = some a') : Level a.truth.confidence a'.truth.confidence := by
  have hrel := h q
  rw [rating_of_existing hq ha, rating_of_existing hq' ha'] at hrel
  cases hrel with
  | some hl => exact hl

/-- Whether two lists assert the same trees with equal confidences. -/
structure Matched (es es' : List (Pattern × Truth)) : Prop where
  roots : ∀ q, (∃ t, (q, t) ∈ es) ↔ ∃ t, (q, t) ∈ es'
  level : ∀ q t t', (q, t) ∈ es → (q, t') ∈ es' → Level t.confidence t'.confidence

theorem Matched.symm {es es' : List (Pattern × Truth)} (h : Matched es es') : Matched es' es :=
  ⟨fun q => (h.roots q).symm, fun q t t' ht ht' => (h.level q t' t ht' ht).symm⟩

theorem Matched.not_mem {es es' : List (Pattern × Truth)} (h : Matched es es') {q : Pattern}
    (hne : ∀ e ∈ es, e.1 ≠ q) : ∀ e ∈ es', e.1 ≠ q := by
  rintro ⟨p, t⟩ hmem rfl
  obtain ⟨t', ht'⟩ := (h.roots p).2 ⟨t, hmem⟩
  exact hne (p, t') ht' rfl

theorem Matched.not_part {es es' : List (Pattern × Truth)} (h : Matched es es') {q : Pattern}
    (hne : ∀ e ∈ es, ¬ Part q e.1) : ∀ e ∈ es', ¬ Part q e.1 := by
  rintro ⟨p, t⟩ hmem hq
  obtain ⟨t', ht'⟩ := (h.roots p).2 ⟨t, hmem⟩
  exact hne (p, t') ht' hq

/-- Asserting the same trees with equal confidences leaves the confidences of all trees equal,
whatever the order. -/
theorem Agrees.rated {u u' : Store} (hr : Agrees s s') {es es' : List (Pattern × Truth)}
    (hm : Matched es es') (h : ∀ q, Rated s es q (u.rating q))
    (h' : ∀ q, Rated s' es' q (u'.rating q)) : Agrees u u' := by
  intro q
  have hq := h q
  have hq' := h' q
  generalize u.rating q = r at hq ⊢
  generalize u'.rating q = r' at hq' ⊢
  cases hq with
  | root ht hx =>
    cases hq' with
    | root ht' hx' => exact .some (hx.trans ((hm.level q _ _ ht ht').trans hx'.symm))
    | part _ _ hne => exact absurd rfl (hm.symm.not_mem hne _ ht)
    | other hne _ => exact absurd rfl (hm.symm.not_mem hne _ ht)
  | part he hpart hne =>
    cases hq' with
    | root ht' _ => exact absurd rfl (hm.not_mem hne _ ht')
    | part _ _ _ =>
      have hrel := hr q
      generalize s.rating q = x at hrel
      generalize s'.rating q = x' at hrel
      cases hrel with
      | some hl => exact .some hl
      | none => exact .some (.refl Truth.isValid_default.confidence)
    | other _ hnot => exact absurd hpart (hm.symm.not_part hnot _ he)
  | other hne hnot =>
    cases hq' with
    | root ht' _ => exact absurd rfl (hm.not_mem hne _ ht')
    | part he' hpart' _ => exact absurd hpart' (hm.not_part hnot _ he')
    | other _ _ => exact hr q

/-! ## Counterparts -/

/-- Whether an atom is the counterpart of another: the same old atom, or the atom of its tree. -/
def Counterpart (c s s' : Store) (id id' : AtomId) : Prop :=
  id ∈ c.ids ∧ id' = id ∨ id ∉ c.ids ∧ ∃ q, s.existing q = some id ∧ s'.existing q = some id'

theorem exists_counterpart (h : Overlay c s) (hr : Agrees s s') {id : AtomId} (hid : id ∈ s.ids) :
    ∃ id', Counterpart c s s' id id' := by
  by_cases hold : id ∈ c.ids
  · exact ⟨id, .inl ⟨hold, rfl⟩⟩
  · obtain ⟨a, ha, rfl⟩ := mem_ids.1 hid
    rcases h.owned a ha with ⟨q, hq⟩ | hc
    · obtain ⟨id', hid'⟩ := hr.existing hq
      exact ⟨id', .inr ⟨hold, q, hq, hid'⟩⟩
    · exact absurd (mem_ids.2 ⟨a, hc, rfl⟩) hold

/-- What a map to counterparts is. -/
structure Pairs (c s s' : Store) (f : AtomId → AtomId) : Prop where
  old : ∀ id ∈ c.ids, f id = id
  existing : ∀ q id, s.existing q = some id → s'.existing q = some (f id)

theorem exists_pairs (hc : c.Inv) (h : Overlay c s) (h' : Overlay c s') (hr : Agrees s s') :
    ∃ f, Pairs c s s' f := by
  choose! f hf using fun id (hid : id ∈ s.ids) => exists_counterpart h hr hid
  refine ⟨f, fun id hid => ?_, fun q id hq => ?_⟩
  · obtain ⟨a, ha, rfl⟩ := mem_ids.1 hid
    obtain ⟨b, hb, hba, _⟩ := h.old a ha
    rcases hf a.id (mem_ids.2 ⟨b, hb, hba⟩) with ⟨_, heq⟩ | ⟨hnew, _⟩
    · exact heq
    · exact absurd hid hnew
  · rcases hf id (mem_ids_of_existing hq) with ⟨hold, heq⟩ | ⟨_, p, hp, hp'⟩
    · rw [heq]
      exact h'.keeps.existing (h.existing_old hc hq hold)
    · rw [existing_inj h.inv hq hp]
      exact hp'

theorem Pairs.existingList {f : AtomId → AtomId} (hf : Pairs c s s' f) {cs : List Pattern}
    {ids : List AtomId} (hcs : s.existingList cs = some ids) :
    s'.existingList cs = some (ids.map f) := by
  rw [existingList_eq_some_iff] at hcs ⊢
  rw [List.forall₂_map_right_iff]
  exact hcs.imp fun q id hq => hf.existing q id hq

/-- The counterpart of a tree's atom has the same form over the counterparts of its children. -/
theorem Pairs.formOf {f : AtomId → AtomId} (hf : Pairs c s s' f) {q : Pattern} {form : Form}
    (hq : s.formOf q = some form) : s'.formOf q = some (form.rename f) := by
  unfold Store.formOf at hq ⊢
  split at hq
  · cases hq
    rfl
  · obtain ⟨ids, hids, rfl⟩ := Option.map_eq_some_iff.1 hq
    exact congrArg (Option.map _) (hf.existingList hids)
  · cases hq

theorem atom_unique (h : s.Inv) {a b : Atom} (ha : a ∈ s.atoms) (hb : b ∈ s.atoms)
    (hid : a.id = b.id) : a = b := by
  have heq := get?_eq_some h ha
  rw [hid, get?_eq_some h hb] at heq
  exact (Option.some.inj heq).symm

theorem mem_of_existing {q : Pattern} {id : AtomId} (hq : s.existing q = some id) :
    ∃ a ∈ s.atoms, a.id = id ∧ s.formOf q = some a.form := by
  obtain ⟨form, hform, ho⟩ := existing_eq_some_iff.1 hq
  obtain ⟨a, ha, hid, rfl⟩ := mem_of_oldest ho
  exact ⟨a, ha, hid, hform⟩

/-- The map to counterparts carries one store into the other. -/
theorem Pairs.carries {f : AtomId → AtomId} (hf : Pairs c s s' f) (hc : c.Inv) (h : Overlay c s)
    (h' : Overlay c s') (hr : Agrees s s') : Carries f s s' := by
  have htree : ∀ a ∈ s.atoms, ∀ q, s.existing q = some a.id → ∃ a' ∈ s'.atoms, a'.id = f a.id ∧
      a'.form = a.form.rename f ∧ Level a.truth.confidence a'.truth.confidence := by
    intro a ha q hq
    have hq' := hf.existing q a.id hq
    obtain ⟨b, hb, hba, hform⟩ := mem_of_existing hq
    obtain ⟨a', ha', hid', hform'⟩ := mem_of_existing hq'
    obtain rfl := atom_unique h.inv hb ha hba
    refine ⟨a', ha', hid', ?_, hr.level hq (get?_eq_some h.inv ha) hq' (hid' ▸ get?_eq_some h'.inv ha')⟩
    exact Option.some.inj (hform'.symm.trans (hf.formOf hform))
  intro a ha
  rcases h.owned a ha with ⟨q, hq⟩ | hold
  · exact htree a ha q hq
  · -- An old atom that stands for no tree is in both stores as it is in the copy.
    obtain ⟨b, hb, hba, hform⟩ := h'.old a hold
    have hid : f a.id = a.id := hf.old a.id (mem_ids.2 ⟨a, hold, rfl⟩)
    rcases h'.owned b hb with ⟨q, hq⟩ | hbold
    · refine htree a ha q (h.keeps.existing (h'.existing_old hc (hba ▸ hq) ?_))
      exact mem_ids.2 ⟨a, hold, rfl⟩
    · obtain rfl := atom_unique hc hbold hold hba
      refine ⟨b, hb, hid.symm, ?_, .refl (h.inv.formed.valid b ha).confidence⟩
      cases hb' : b.form with
      | node k name => rfl
      | link k out =>
        have hout : out.map f = out := by
          refine Eq.trans (List.map_congr_left fun ref href => ?_) (List.map_id out)
          exact hf.old ref (older_of_link hc hold hb' href).2
        exact congrArg (Form.link k) hout.symm

/-! ## Looking for a tree -/

/-- Whether a pattern denotes a stored atom under some bindings. -/
def Denoted (s : Store) (q : Pattern) (id : AtomId) : Prop := id ∈ s.ids ∧ ∃ b, s.Denotes b q id

/-- What looking for a pattern finds: the oldest atom that it denotes. -/
inductive Found (s : Store) (q : Pattern) : Option AtomId → Prop
  | none (h : ∀ id, ¬ s.Denoted q id) : Found s q none
  | some {id : AtomId} (h : s.Denoted q id) (hle : ∀ x, s.Denoted q x → id ≤ x) :
    Found s q (some id)

theorem exists_mem_scan {q : Pattern} {id : AtomId} (hd : s.Denoted q id) :
    ∃ m ∈ s.scan q .empty, m.atomId = id := by
  obtain ⟨hid, b, hd⟩ := hd
  obtain ⟨b', hmatch, _⟩ := matchAtom_complete (b := .empty) nofun hd
  exact ⟨⟨b', id⟩, mem_scan.2 ⟨hid, hmatch⟩, rfl⟩

theorem denoted_of_mem_scan {q : Pattern} {m : Match} (hm : m ∈ s.scan q .empty) :
    s.Denoted q m.atomId := by
  obtain ⟨hid, hmatch⟩ := mem_scan.1 hm
  exact ⟨hid, m.bindings, (isMatch_of_matchAtom hmatch).denotes⟩

theorem found_of_lookup (h : s.Inv) (q : Pattern) : ∃ o, s.lookup q = .ok o ∧ Found s q o := by
  have hrun : s.lookup q = .ok ((s.scan q .empty).head?.map Match.atomId) := by
    unfold lookup matchesOf
    rw [matchesFrom_eq_scan h q (holds_empty s)]
    rfl
  refine ⟨_, hrun, ?_⟩
  have hasc := ascending_scan h q .empty
  cases hscan : s.scan q .empty with
  | nil =>
    refine .none fun id hd => ?_
    obtain ⟨m, hm, _⟩ := exists_mem_scan hd
    rw [hscan] at hm
    cases hm
  | cons m ms =>
    refine .some (denoted_of_mem_scan (hscan ▸ List.mem_cons_self ..)) fun x hx => ?_
    obtain ⟨n, hn, rfl⟩ := exists_mem_scan hx
    rw [hscan] at hn hasc
    rcases List.mem_cons.1 hn with rfl | hn
    · exact Nat.le_refl _
    · exact Nat.le_of_lt ((List.pairwise_cons.1 hasc).1 _ (List.mem_map_of_mem hn))

theorem Carries.denoted {f : AtomId → AtomId} (m : Carries f s s') (h : s.Inv) (h' : s'.Inv)
    {q : Pattern} {id : AtomId} (hd : s.Denoted q id) : s'.Denoted q (f id) := by
  obtain ⟨hid, b, hd⟩ := hd
  exact ⟨m.mem_ids hid, _, m.denotes h h' hd⟩

mutual

/-- The atom of a tree is denoted by no other ground pattern. -/
theorem eq_of_denotes {s : Store} (h : s.Inv) {b : Bindings} {p q : Pattern} {id : AtomId}
    (hq : q.Legible) (hg : ∀ v, v ∉ q.occurrences) (hd : s.Denotes b q id)
    (hp : s.existing p = some id) : p = q := by
  obtain ⟨a, ha, rfl, hform⟩ := mem_of_existing hp
  cases q with
  | var v => exact absurd (List.mem_singleton.2 rfl) (hg v)
  | node k name =>
    unfold Denotes at hd
    obtain ⟨c, hget, hk, hn⟩ := hd
    obtain rfl := Option.some.inj ((get?_eq_some h ha).symm.trans hget)
    cases hq with
    | @node k _ _ hread =>
      obtain ⟨l, m, hf, heq⟩ := kind_eq_node hk rfl
      cases heq
      unfold Atom.name? at hn
      rw [hf] at hn hform
      cases hn
      exact formOf_inj h hform rfl
  | link k cs =>
    unfold Denotes at hd
    obtain ⟨c, hget, hk, hcs⟩ := hd
    obtain rfl := Option.some.inj ((get?_eq_some h ha).symm.trans hget)
    cases hq with
    | link k hlegible =>
      obtain ⟨l, out, hf, heq⟩ := kind_eq_link hk rfl
      cases heq
      unfold Atom.outgoing at hcs
      rw [hf] at hcs hform
      unfold formOf at hform
      split at hform
      · cases hform
      · obtain ⟨ids, hids, heq⟩ := Option.map_eq_some_iff.1 hform
        cases heq
        rw [eq_of_denoteEach h hlegible hg hcs hids]
      · cases hform

theorem eq_of_denoteEach {s : Store} (h : s.Inv) {b : Bindings} {cs ds : List Pattern}
    {ids : List AtomId} (hcs : ∀ c ∈ cs, Legible c) (hg : ∀ v, v ∉ occurrencesList cs)
    (hd : s.DenoteEach b cs ids) (hds : s.existingList ds = some ids) : ds = cs := by
  cases cs with
  | nil =>
    obtain rfl := List.length_eq_zero_iff.1 (length_of_denoteEach hd)
    exact existingList_inj h hds rfl
  | cons c cs =>
    cases ids with
    | nil => exact absurd hd (by simp [DenoteEach])
    | cons id ids =>
      unfold DenoteEach at hd
      obtain ⟨hc, hcs⟩ := List.forall_mem_cons.1 hcs
      cases ds with
      | nil => cases hds
      | cons d ds =>
        obtain ⟨_, _, hid, hids, heq⟩ := existingList_cons_eq_some.1 hds
        cases heq
        rw [eq_of_denotes h hc (fun v hv => hg v (List.mem_append_left _ hv)) hd.1 hid,
          eq_of_denoteEach h hcs (fun v hv => hg v (List.mem_append_right _ hv)) hd.2 hids]

end

/-- An atom of a ground tree that is not in the copy is the one that assertions of the tree find. -/
theorem Overlay.existing_of_denoted (h : Overlay c s) {q : Pattern} (hq : q.Legible)
    (hground : q.isGround = true) {id : AtomId} (hd : s.Denoted q id) (hnew : id ∉ c.ids) :
    s.existing q = some id := by
  obtain ⟨hid, b, hd⟩ := hd
  obtain ⟨a, ha, rfl⟩ := mem_ids.1 hid
  obtain ⟨p, hp⟩ := (h.owned a ha).resolve_right fun hin => hnew (mem_ids.2 ⟨a, hin, rfl⟩)
  rw [← eq_of_denotes h.inv hq (isGround_iff.1 hground) hd hp]
  exact hp

/-- The oldest atoms of a ground tree are counterparts. -/
theorem Pairs.oldest_denoted {f g : AtomId → AtomId} (hf : Pairs c s s' f) (hg : Pairs c s' s g)
    (hc : c.Inv) (h : Overlay c s) (h' : Overlay c s') (hr : Agrees s s') {q : Pattern}
    (hq : q.Legible) (hground : q.isGround = true) {x x' : AtomId} (hx : s.Denoted q x)
    (hle : ∀ y, s.Denoted q y → x ≤ y) (hx' : s'.Denoted q x')
    (hle' : ∀ y, s'.Denoted q y → x' ≤ y) : x' = f x := by
  have hto := hf.carries hc h h' hr
  have hfrom := hg.carries hc h' h hr.symm
  have hbelow : ∀ id ∈ c.ids, id < c.nextId := by
    intro id hid
    obtain ⟨a, ha, rfl⟩ := mem_ids.1 hid
    exact hc.formed.below a ha
  by_cases hold : x ∈ c.ids
  · -- An old atom of the tree is older than every new one, so both are old.
    have hx'x := hle' _ (hto.denoted h.inv h'.inv hx)
    rw [hf.old x hold] at hx'x ⊢
    have hold' : x' ∈ c.ids := (h'.fresh x' hx'.1).resolve_right fun hnew =>
      absurd (Nat.le_trans hnew hx'x) (Nat.not_le.2 (hbelow x hold))
    have hxx' := hle _ (hfrom.denoted h'.inv h.inv hx')
    rw [hg.old x' hold'] at hxx'
    exact Nat.le_antisymm hx'x hxx'
  · have hnew : x' ∉ c.ids := by
      intro hold'
      have hxx' := hle _ (hfrom.denoted h'.inv h.inv hx')
      rw [hg.old x' hold'] at hxx'
      exact hold ((h.fresh x hx.1).resolve_right fun hn =>
        absurd (Nat.le_trans hn hxx') (Nat.not_le.2 (hbelow x' hold')))
    have htree := hf.existing q x (h.existing_of_denoted hq hground hx hold)
    rw [h'.existing_of_denoted hq hground hx' hnew] at htree
    exact Option.some.inj htree

/-- The confidence of the atom that was found, if any was. -/
def confidenceAt (s : Store) (o : Option AtomId) : Option Float :=
  (o.bind s.get?).map fun a => a.truth.confidence

/-- Looking for a ground tree finds equal confidences. -/
theorem lookup_agrees (hc : c.Inv) (h : Overlay c s) (h' : Overlay c s') (hr : Agrees s s')
    {q : Pattern} (hq : q.Legible) (hground : q.isGround = true) :
    ∃ o o', s.lookup q = .ok o ∧ s'.lookup q = .ok o' ∧
      Option.Rel Level (s.confidenceAt o) (s'.confidenceAt o') := by
  obtain ⟨f, hf⟩ := exists_pairs hc h h' hr
  obtain ⟨g, hg⟩ := exists_pairs hc h' h hr.symm
  have hto := hf.carries hc h h' hr
  have hfrom := hg.carries hc h' h hr.symm
  obtain ⟨o, ho, hfound⟩ := found_of_lookup h.inv q
  obtain ⟨o', ho', hfound'⟩ := found_of_lookup h'.inv q
  refine ⟨o, o', ho, ho', ?_⟩
  cases hfound with
  | none hnone =>
    cases hfound' with
    | none _ => exact .none
    | some hx' _ => exact absurd (hfrom.denoted h'.inv h.inv hx') (hnone _)
  | @some x hx hle =>
    cases hfound' with
    | none hnone => exact absurd (hto.denoted h.inv h'.inv hx) (hnone _)
    | some hx' hle' =>
      rw [hf.oldest_denoted hg hc h h' hr hq hground hx hle hx' hle']
      obtain ⟨a, ha⟩ := Option.isSome_iff_exists.1 (contains_iff.2 hx.1)
      obtain ⟨a', ha', _, hl⟩ := hto.get? h.inv h'.inv ha
      unfold confidenceAt
      rw [Option.bind_some, Option.bind_some, ha, ha']
      exact .some hl

end Credence.Store
