import Credence.Proofs.Store.Assertion
import Credence.Proofs.Store.Consistency
import Credence.Proofs.Store.Lookup
/-!
# When an assertion reuses what is stored

Looking for a tree considers every atom, while asserting it takes the oldest node of
each name and the oldest link over the atoms that it took before. The two agree on
whether the tree is there unless each of its atoms has a part, or is itself, younger
than another of the same form: then the tree is found, and asserting it stores it
once more.
-/

namespace Credence.Store

open Pattern

variable {s s' : Store} {p : Pattern} {id : AtomId} {b : Bindings} {t : Option Truth}

/-! ## Atoms that assertions find -/

/-- Whether no older atom has the form of an atom. -/
def First (s : Store) (id : AtomId) : Prop :=
  ∀ a ∈ s.atoms, a.id = id → ∀ c ∈ s.atoms, c.form = a.form → id ≤ c.id

/-- Whether an atom and all atoms below it are the oldest of their forms. -/
def Canonical (s : Store) (id : AtomId) : Prop :=
  ∀ x, Relation.ReflTransGen s.ChildOf x id → s.First x

/-- Whether a tree has a canonical atom if it has an atom. -/
def Rooted (s : Store) (p : Pattern) : Prop :=
  ∀ id, s.Denoted p id → ∃ root, s.Denoted p root ∧ s.Canonical root

theorem Canonical.child {ref : AtomId} (h : s.Canonical id) (hc : s.ChildOf ref id) :
    s.Canonical ref :=
  fun x hx => h x (hx.tail hc)

/-- An atom is canonical if it is the oldest of its form and its children are canonical. -/
theorem canonical_of_children (hf : s.First id) (hc : ∀ ref, s.ChildOf ref id → s.Canonical ref) :
    s.Canonical id := by
  intro x hx
  rcases Relation.ReflTransGen.cases_tail hx with rfl | ⟨ref, hx, href⟩
  · exact hf
  · exact hc ref href x hx

theorem le_of_oldest (h : s.Inv) {form : Form} (ho : s.oldest form = some id) {c : Atom}
    (hc : c ∈ s.atoms) (hform : c.form = form) : id ≤ c.id := by
  obtain ⟨a, ha, rfl⟩ := Option.map_eq_some_iff.1 ho
  obtain ⟨_, before, after, hsplit, hbefore⟩ := List.find?_eq_some_iff_append.1 ha
  have hasc := h.formed.ascending
  unfold ids at hasc
  rw [hsplit, List.map_append, List.map_cons, List.pairwise_append, List.pairwise_cons] at hasc
  rw [hsplit, List.mem_append, List.mem_cons] at hc
  rcases hc with hc | rfl | hc
  · have hne := hbefore c hc
    simp [hform] at hne
  · exact Nat.le_refl _
  · exact Nat.le_of_lt (hasc.2.1.1 _ (List.mem_map_of_mem hc))

theorem first_of_oldest (h : s.Inv) {form : Form} (ho : s.oldest form = some id) : s.First id := by
  intro a ha hid c hc hform
  obtain ⟨d, hd, rfl, rfl⟩ := mem_of_oldest ho
  obtain rfl := atom_unique h ha hd hid
  exact le_of_oldest h ho hc hform

theorem oldest_of_first (h : s.Inv) {a : Atom} (ha : a ∈ s.atoms) (hf : s.First a.id) :
    s.oldest a.form = some a.id := by
  cases ho : s.oldest a.form with
  | none => exact absurd rfl (oldest_eq_none_iff.1 ho a ha)
  | some x =>
    obtain ⟨c, hc, rfl, hform⟩ := mem_of_oldest ho
    rw [Nat.le_antisymm (le_of_oldest h ho ha rfl) (hf a ha rfl c hc hform)]

theorem childOf_iff (h : s.Inv) {a : Atom} (ha : a ∈ s.atoms) {ref : AtomId} :
    s.ChildOf ref a.id ↔ ref ∈ a.outgoing := by
  constructor
  · rintro ⟨c, hc, hid, href⟩
    rwa [atom_unique h ha hc hid.symm]
  · exact fun href => ⟨a, ha, rfl, href⟩

mutual

/-- Assertions find canonical atoms only. -/
theorem canonical_of_existing (h : s.Inv) {p : Pattern} {id : AtomId}
    (he : s.existing p = some id) : s.Canonical id := by
  cases p with
  | var v => cases he
  | node k name =>
    cases k with
    | link k => cases he
    | node k =>
      refine canonical_of_children (first_of_oldest h he) fun ref href => ?_
      obtain ⟨a, ha, rfl, hform⟩ := mem_of_oldest he
      have href := (childOf_iff h ha).1 href
      unfold Atom.outgoing at href
      rw [hform] at href
      cases href
  | link k cs =>
    cases k with
    | node k => cases he
    | link k =>
      rw [existing_link] at he
      obtain ⟨ids, hids, ho⟩ := Option.bind_eq_some_iff.1 he
      refine canonical_of_children (first_of_oldest h ho) fun ref href => ?_
      obtain ⟨a, ha, rfl, hform⟩ := mem_of_oldest ho
      have href := (childOf_iff h ha).1 href
      unfold Atom.outgoing at href
      rw [hform] at href
      exact canonical_of_existingList h hids ref href

theorem canonical_of_existingList (h : s.Inv) {cs : List Pattern} {ids : List AtomId}
    (he : s.existingList cs = some ids) : ∀ id ∈ ids, s.Canonical id := by
  cases cs with
  | nil =>
    cases he
    exact nofun
  | cons c cs =>
    obtain ⟨id, rest, hid, hrest, rfl⟩ := existingList_cons_eq_some.1 he
    exact List.forall_mem_cons.2 ⟨canonical_of_existing h hid, canonical_of_existingList h hrest⟩

end

mutual

/-- Assertions find every canonical atom of a tree that fits. -/
theorem existing_of_canonical (h : s.Inv) {p : Pattern} (hp : p.fits = true) {id : AtomId}
    (hd : s.Denotes b p id) (hc : s.Canonical id) : s.existing p = some id := by
  cases p with
  | var v => cases hp
  | node k name =>
    cases k with
    | link k => cases hp
    | node k =>
      unfold Denotes at hd
      obtain ⟨a, hg, hk, hn⟩ := hd
      obtain ⟨ha, rfl⟩ := (get?_some_iff h.formed.ascending).1 hg
      obtain ⟨l, m, hform, heq⟩ := kind_eq_node hk rfl
      cases heq
      unfold Atom.name? at hn
      rw [hform] at hn
      cases hn
      have ho := oldest_of_first h ha (hc _ .refl)
      rwa [hform] at ho
  | link k cs =>
    cases k with
    | node k => cases hp
    | link k =>
      obtain ⟨_, hfits⟩ := Bool.and_eq_true_iff.1 hp
      unfold Denotes at hd
      obtain ⟨a, hg, hk, hcs⟩ := hd
      obtain ⟨ha, rfl⟩ := (get?_some_iff h.formed.ascending).1 hg
      obtain ⟨l, out, hform, heq⟩ := kind_eq_link hk rfl
      cases heq
      have hlist := existingList_of_canonical h hfits hcs fun ref href =>
        hc.child ((childOf_iff h ha).2 href)
      have ho := oldest_of_first h ha (hc _ .refl)
      unfold Atom.outgoing at hlist
      rw [hform] at hlist ho
      rw [existing_link, hlist]
      exact ho

theorem existingList_of_canonical (h : s.Inv) {cs : List Pattern} (hcs : fitsList cs = true)
    {ids : List AtomId} (hd : s.DenoteEach b cs ids) (hc : ∀ id ∈ ids, s.Canonical id) :
    s.existingList cs = some ids := by
  cases cs with
  | nil =>
    obtain rfl := List.length_eq_zero_iff.1 (length_of_denoteEach hd)
    rfl
  | cons c cs =>
    cases ids with
    | nil => exact absurd hd (by simp [DenoteEach])
    | cons id ids =>
      obtain ⟨hfits, hcs⟩ := Bool.and_eq_true_iff.1 hcs
      obtain ⟨hid, hids⟩ := List.forall_mem_cons.1 hc
      unfold DenoteEach at hd
      exact existingList_cons_eq_some.2 ⟨id, ids, existing_of_canonical h hfits hd.1 hid,
        existingList_of_canonical h hcs hd.2 hids, rfl⟩

end

/-- Assertions of a tree that fits find its canonical atom. -/
theorem existing_eq_some_iff_canonical (h : s.Inv) (hp : p.fits = true) :
    s.existing p = some id ↔ s.Denoted p id ∧ s.Canonical id := by
  constructor
  · exact fun he => ⟨denoted_of_existing h he, canonical_of_existing h he⟩
  · rintro ⟨⟨_, b, hd⟩, hc⟩
    exact existing_of_canonical h hp hd hc

/-- Looking for a tree and asserting it agree on whether it is there exactly if it is rooted. -/
theorem rooted_iff (h : s.Inv) (hp : p.fits = true) :
    s.Rooted p ↔ (s.existing p = none ↔ s.lookup p = .ok none) := by
  rw [lookup_eq_iff h]
  constructor
  · intro hr
    constructor
    · intro hnone
      refine .none fun id hd => ?_
      obtain ⟨root, hroot⟩ := hr id hd
      rw [(existing_eq_some_iff_canonical h hp).2 hroot] at hnone
      cases hnone
    · intro hf
      cases hf with
      | none hnone =>
        by_contra hsome
        obtain ⟨root, hroot⟩ := Option.ne_none_iff_exists'.1 hsome
        exact hnone root (denoted_of_existing h hroot)
  · intro heq id hd
    cases he : s.existing p with
    | some root => exact ⟨root, (existing_eq_some_iff_canonical h hp).1 he⟩
    | none =>
      cases heq.1 he with
      | none hnone => exact absurd hd (hnone id)

/-- All trees are rooted where no two atoms have the same tree. -/
theorem Distinct.rooted (hd : s.Distinct) (h : s.Inv) (hplain : s.Plain) (hp : p.WellKinded)
    (hground : p.isGround = true) : s.Rooted p := by
  intro id hdenoted
  obtain ⟨hid, rfl⟩ := (denoted_iff_treeOf h hplain hp hground).1 hdenoted
  exact ⟨id, hdenoted, canonical_of_existing h (hd.existing_treeOf h hplain hid)⟩

/-! ## What an assertion adds -/

/-- Atoms are added exactly for a tree that had none. -/
theorem Row.ids_ne_iff {J : Pattern → Truth → Prop} {new : List Atom} {qs : List Pattern}
    (h : Row J s s' new qs) : s'.ids ≠ s.ids ↔ qs ≠ [] := by
  have hlen : new.length = qs.length := h.trees.length_eq
  have hids : s'.ids = s.ids ++ new.map Atom.id := by
    show s'.atoms.map Atom.id = s.atoms.map Atom.id ++ _
    rw [h.atoms, List.map_append]
  simp [hids, ← List.length_eq_zero_iff, hlen]

/-- A tree that fits is asserted, and atoms are added exactly if assertions did not find it. -/
theorem assert_adds (h : s.Inv) (hground : p.isGround = true) (hp : p.fits = true)
    (ht : ∀ v, t = some v → v.IsValid) :
    ∃ root s', (assert p t).run.run s = (.ok root, s') ∧ s'.Inv ∧ s'.existing p = some root ∧
      (s'.ids ≠ s.ids ↔ s.existing p = none) := by
  obtain ⟨root, u, hensure, hroot⟩ := run_ensure_of_fits h t hp
  have hplants := plants_ensure h t p
  rw [hensure] at hplants
  have hJ : ∀ q v, Assigned p (t.getD .default) q v → v.IsValid :=
    fun _ _ => isValid_of_assigned (isValid_getD ht)
  have hu := hplants.inv hJ h
  have hadds : u.ids ≠ s.ids ↔ s.existing p = none := by
    obtain ⟨new, qs, hrow⟩ := exists_row hJ h hplants
    rw [hrow.ids_ne_iff]
    constructor
    · intro hne
      by_contra hsome
      obtain ⟨id, he⟩ := Option.ne_none_iff_exists'.1 hsome
      rw [run_ensure_of_existing h t he] at hensure
      cases hensure
      exact hrow.ids_ne_iff.2 hne rfl
    · exact fun hnone => List.ne_nil_of_mem ((hrow.mem_iff hroot p).2 ⟨.inl rfl, hnone⟩)
  rw [assert_of_isGround hground, run_bind, hensure]
  cases t with
  | none => exact ⟨root, u, rfl, hu, hroot, hadds⟩
  | some v =>
    show ∃ r s', (settle root v >>= fun _ => pure root).run.run u = (.ok r, s') ∧ _
    rw [run_bind, run_settle]
    refine ⟨root, _, rfl, ?_⟩
    cases u.get? root with
    | none => exact ⟨hu, hroot, hadds⟩
    | some a =>
      dsimp only
      split
      · exact ⟨hu, hroot, hadds⟩
      · rw [existing_retruth, ids_retruth]
        exact ⟨hu.retruth root (ht v rfl), hroot, hadds⟩

/-! ## Trees that are read back -/

/-- Whether a tree denotes an atom, can be asserted and is one that the reader gives. -/
structure Spells (s : Store) (p : Pattern) (id : AtomId) : Prop where
  denotes : s.Denotes .empty p id
  fits : p.fits = true
  grammatical : p.Grammatical

theorem spells_node (h : s.Inv) {a : Atom} (ha : a ∈ s.atoms) {k : NodeKind} {name : String}
    (hf : a.form = .node k name) (hk : k ≠ .variable) : s.Spells (.node (.node k) name) a.id := by
  have hfits := h.formed.fits a ha
  rw [hf] at hfits
  refine ⟨?_, Bool.not_eq_true' _ ▸ hfits, .node hk name⟩
  unfold Denotes Atom.kind Atom.name?
  exact ⟨a, get?_eq_some h ha, by rw [hf]; rfl, by rw [hf]⟩

theorem spells_link (h : s.Inv) {a : Atom} (ha : a ∈ s.atoms) {k : LinkKind} {out : List AtomId}
    (hf : a.form = .link k out) {cs : List Pattern} (hcs : List.Forall₂ s.Spells cs out) :
    s.Spells (.link (.link k) cs) a.id := by
  have hfits := h.formed.fits a ha
  rw [hf] at hfits
  have hall : ∀ c ∈ cs, c.fits = true ∧ c.Grammatical := by
    intro c hc
    obtain ⟨ref, _, hspells⟩ := exists_of_mem_forall₂ hcs.flip hc
    exact ⟨hspells.fits, hspells.grammatical⟩
  refine ⟨?_, ?_, .link k fun c hc => (hall c hc).2⟩
  · unfold Denotes Atom.kind Atom.outgoing
    refine ⟨a, get?_eq_some h ha, by rw [hf]; rfl, ?_⟩
    rw [hf]
    exact denoteEach_iff.2 (hcs.imp fun _ _ hspells => hspells.denotes)
  · refine Bool.and_eq_true_iff.2 ⟨?_, fitsList_iff.2 fun c hc => (hall c hc).1⟩
    rw [hcs.length_eq]
    exact hfits

/-- A ground tree spells the atoms that read back as the tree. -/
theorem spells_of_toPattern (h : s.Inv) (hground : p.isGround = true)
    (hp : s.toPattern id = .ok p) : s.Spells p id := by
  refine h.induct (P := fun id => ∀ p, p.isGround = true → s.toPattern id = .ok p →
    s.Spells p id) (fun a ha k name hf p hg hp => ?_) (fun a ha k out hf hout p hg hp => ?_)
    (mem_ids_of_toPattern hp) p hground hp
  · rw [toPattern_node h ha hf] at hp
    unfold patternOfNode at hp
    split at hp
    · -- A variable node reads back as a variable, which is not ground.
      obtain ⟨v, _, rfl⟩ := map_eq_ok (mapError_eq_ok_iff.1 hp)
      exact absurd (List.mem_singleton_self v) (isGround_iff.1 hg v)
    · next hk =>
      cases hp
      exact spells_node h ha hf hk
  · rw [toPattern_link h ha hf] at hp
    obtain ⟨cs, hcs, rfl⟩ := map_eq_ok hp
    have hgs : ∀ c ∈ cs, c.isGround = true := fun c hc =>
      isGround_iff.2 fun v hv => isGround_iff.1 hg v (mem_occurrencesList.2 ⟨c, hc, hv⟩)
    have hall := (List.forall₂_and_left (p := fun ref => ref ∈ out) out cs).2
      ⟨fun _ href => href, forall₂_of_mapM hcs⟩
    refine spells_link h ha hf ?_
    refine ((List.forall₂_and_left (p := fun c => c.isGround = true) cs out).2
      ⟨hgs, hall.flip⟩).imp fun c ref hc => ?_
    exact (hout ref hc.2.1).2 c hc.1 hc.2.2

/-- In every reachable store a ground tree that can be stored is asserted, and atoms are added
exactly when looking for it finds none, if and only if the tree is rooted. Then a tree that an atom
reads back as is not stored again: its assertion returns an atom of this tree. Any other ground
tree is no tree of an atom, and its assertion fails. Where atoms are told apart by their trees, all
trees are rooted. -/
theorem assertValue_reuses (h : s.Reachable) (hground : p.isGround = true) {v : Value}
    (ht : Given v t) :
    (p.fits = true → ∃ root s', (assertValue p v).run.run s = (.ok root, s') ∧
      ((s'.ids ≠ s.ids ↔ s.lookup p = .ok none) ↔ s.Rooted p) ∧
      (s.Rooted p → ∀ id, s.toPattern id = .ok p → s'.ids = s.ids ∧ s'.toPattern root = .ok p)) ∧
    (p.fits = false → (∀ id, s.toPattern id ≠ .ok p) ∧
      ∃ e s', (assertValue p v).run.run s = (.error e, s')) ∧
    (s.Distinct → s.Plain → p.WellKinded → s.Rooted p) := by
  have hvalid : ∀ u, t = some u → u.IsValid := by
    rintro u rfl
    cases ht with
    | truth hu => exact Truth.isValid_of_ofValue hu
  rw [run_assertValue_of_given hground ht]
  refine ⟨fun hp => ?_, fun hp => ?_, fun hd hplain hkinds => ?_⟩
  · obtain ⟨root, s', hrun, hinv, hroot, hadds⟩ := assert_adds h.inv hground hp hvalid
    refine ⟨root, s', hrun, ?_, fun hr id hid => ?_⟩
    · rw [hadds, rooted_iff h.inv hp]
    · have hspells := spells_of_toPattern h.inv hground hid
      refine ⟨?_, toPattern_of_existing hinv hspells.grammatical hroot⟩
      obtain ⟨x, hx⟩ := hr id ⟨mem_ids_of_toPattern hid, .empty, hspells.denotes⟩
      have hfound := (existing_eq_some_iff_canonical h.inv hp).2 hx
      by_contra hne
      rw [hadds.1 hne] at hfound
      cases hfound
  · refine ⟨fun id hid => ?_, ?_⟩
    · rw [(spells_of_toPattern h.inv hground hid).fits] at hp
      cases hp
    · have hrun := run_assert h.inv hground t
      rw [if_neg (Bool.eq_false_iff.1 hp)] at hrun
      obtain ⟨e, hrun⟩ := hrun
      exact ⟨e, _, hrun⟩
  · exact hd.rooted h.inv hplain hkinds hground

/-- Two nodes of one name, and a list over the younger of them. -/
def forked : Store :=
  let node := add (.text "ConceptNode") (.text "a") [] .null
  let first := (node.run.run empty).2
  let second := (node.run.run first).2
  ((add (.text "ListLink") .null [.int 2] .null).run.run second).2

theorem reachable_forked : Reachable forked :=
  ((Reachable.empty.add ..).add ..).add ..

/-- A list over the older node as well: looking for the tree finds the list over the younger node,
and asserting the tree returns the other one. -/
theorem assertValue_reuses_forked :
    let p : Pattern := .link (.link .list) [.node (.node .concept) "a"]
    let s := ((add (.text "ListLink") .null [.int 1] .null).run.run forked).2
    s.Reachable ∧ p.isGround = true ∧ Given .null none ∧ p.fits = true ∧ s.Rooted p ∧
      s.toPattern 3 = .ok p ∧ s.lookup p = .ok (some 3) ∧ s.existing p = some 4 ∧
      ∃ root s', (assertValue p .null).run.run s = (.ok root, s') ∧ s'.ids = s.ids ∧
        s'.toPattern root = .ok p := by
  intro p s
  have hs : s.Reachable := reachable_forked.add ..
  have hground : p.isGround = true := by decide
  have hfits : p.fits = true := by decide
  have hread : s.toPattern 3 = .ok p := ok_of_toOption (by decide +kernel)
  have hlookup : s.lookup p = .ok (some 3) := ok_of_toOption (by decide +kernel)
  have hfound : s.existing p = some 4 := by decide +kernel
  have hrooted : s.Rooted p := fun _ _ =>
    ⟨4, (existing_eq_some_iff_canonical hs.inv hfits).1 hfound⟩
  obtain ⟨root, s', hrun, _, hreuse⟩ := (assertValue_reuses hs hground .missing).1 hfits
  exact ⟨hs, hground, .missing, hfits, hrooted, hread, hlookup, hfound, root, s', hrun,
    hreuse hrooted 3 hread⟩

/-- The list over the younger node reads back as the tree, and looking for the tree finds it, but
asserting the tree stores another list. -/
theorem not_assertValue_reuses :
    let p : Pattern := .link (.link .list) [.node (.node .concept) "a"]
    forked.Reachable ∧ p.isGround = true ∧ forked.toPattern 3 = .ok p ∧
      forked.lookup p = .ok (some 3) ∧ ((assertValue p .null).run.run forked).1 = .ok 4 ∧
      forked.ids = [1, 2, 3] ∧ ((assertValue p .null).run.run forked).2.ids = [1, 2, 3, 4] :=
  ⟨reachable_forked, by decide, ok_of_toOption (by decide +kernel),
    ok_of_toOption (by decide +kernel), ok_of_toOption (by decide +kernel), by decide +kernel,
    by decide +kernel⟩

end Credence.Store
