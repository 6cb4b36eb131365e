import Credence.Proofs.Store.Excerpt
/-!
# Copying what references lead to

A worklist of references is worked off from its end: an unknown reference is an error,
an atom that was met before is passed over, and any other atom is kept and puts its own
references on the list. The list runs out in exactly one way. What it has kept then is
all that the listed atoms lead to, and the copy of these atoms is the one that a single
pass over the store makes.
-/

namespace Credence

theorem Reference.toValue_ofValue (v : Value) : (Reference.ofValue v).toValue = v := by
  unfold ofValue
  split <;> try rfl
  split <;> rfl

namespace Store

variable {s : Store}

/-! ## The worklist -/

/-- The references that an atom puts on the list, its last one foremost. -/
def leads (a : Atom) : List Reference := (a.written.map Reference.ofValue).reverse

/-- How a list of references, its next one foremost, is worked off beside the identifiers that are
kept already, and what comes of it. -/
inductive Walk (s : Store) : List Reference → List AtomId → Except Error (List AtomId) → Prop
  | done {kept : List AtomId} : Walk s [] kept (.ok kept)
  | unknown {r : Reference} {todo : List Reference} {kept : List AtomId} (hr : s.find? r = none) :
    Walk s (r :: todo) kept (.error (.notFound r.toValue))
  | again {r : Reference} {todo : List Reference} {kept : List AtomId} {a : Atom}
    {outcome : Except Error (List AtomId)} (hr : s.find? r = some a.id)
    (ha : s.get? a.id = some a) (hk : a.id ∈ kept) (h : Walk s todo kept outcome) :
    Walk s (r :: todo) kept outcome
  | keep {r : Reference} {todo : List Reference} {kept : List AtomId} {a : Atom}
    {outcome : Except Error (List AtomId)} (hr : s.find? r = some a.id)
    (ha : s.get? a.id = some a) (hk : a.id ∉ kept)
    (h : Walk s (leads a ++ todo) (a.id :: kept) outcome) : Walk s (r :: todo) kept outcome

theorem Walk.unique {todo : List Reference} {kept : List AtomId}
    {o o' : Except Error (List AtomId)} (h : s.Walk todo kept o) (h' : s.Walk todo kept o') :
    o = o' := by
  induction h with
  | done =>
    cases h'
    rfl
  | unknown hr =>
    cases h' with
    | unknown => rfl
    | again hr' | keep hr' => simp [hr] at hr'
  | @again r todo kept a o hr ha hk h ih =>
    cases h' with
    | unknown hr' => simp [hr] at hr'
    | again _ _ _ h' => exact ih h'
    | @keep _ _ _ b _ hr' _ hk' =>
      rw [Option.some.inj (hr.symm.trans hr')] at hk
      exact absurd hk hk'
  | @keep r todo kept a o hr ha hk h ih =>
    cases h' with
    | unknown hr' => simp [hr] at hr'
    | @again _ _ _ b _ hr' _ hk' =>
      rw [Option.some.inj (hr.symm.trans hr')] at hk
      exact absurd hk' hk
    | @keep _ _ _ b _ hr' hb _ h' =>
      rw [Option.some.inj (hr.symm.trans hr'), hb] at ha
      cases ha
      exact ih h'

theorem exists_get?_of_find? {r : Reference} {id : AtomId} (h : s.find? r = some id) :
    ∃ a, s.get? a.id = some a ∧ a.id = id := by
  unfold find? at h
  split at h
  · split at h
    · next hin =>
      cases h
      obtain ⟨a, ha⟩ := Option.isSome_iff_exists.1 hin
      have hid := id_of_get? ha
      exact ⟨a, by rw [hid, ha], hid⟩
    · cases h
  · cases h

/-- The list runs out: either it gets shorter or one more atom of the store is kept. -/
theorem exists_walk (s : Store) (todo : List Reference) (kept : List AtomId) :
    ∃ o, s.Walk todo kept o := by
  generalize hfree : differing (s.ids.filter fun id => !kept.contains id) = free
  induction free using Nat.strongRecOn generalizing todo kept with
  | ind free ih =>
    induction todo with
    | nil => exact ⟨_, .done⟩
    | cons r todo ihtodo =>
      cases hr : s.find? r with
      | none => exact ⟨_, .unknown hr⟩
      | some id =>
        obtain ⟨a, ha, rfl⟩ := exists_get?_of_find? hr
        by_cases hk : a.id ∈ kept
        · obtain ⟨o, ho⟩ := ihtodo
          exact ⟨o, .again hr ha hk ho⟩
        · have hid : a.id ∈ s.ids := mem_ids.2 ⟨a, List.mem_of_find?_eq_some ha, rfl⟩
          have hless : differing (s.ids.filter fun id => !(a.id :: kept).contains id) < free := by
            rw [← hfree]
            apply differing_lt (v := a.id)
            · simp [hid, hk]
            · intro id hin
              simp only [List.mem_filter, List.contains_cons, Bool.not_or, Bool.and_eq_true,
                Bool.not_eq_true', beq_eq_false_iff_ne] at hin ⊢
              exact ⟨⟨hin.1, hin.2.2⟩, hin.2.1⟩
          obtain ⟨o, ho⟩ := ih _ hless (leads a ++ todo) (a.id :: kept) rfl
          exact ⟨o, .keep hr ha hk ho⟩

/-! ## What is kept -/

theorem mem_ids_of_find? {r : Reference} {id : AtomId} (h : s.find? r = some id) : id ∈ s.ids := by
  obtain ⟨a, ha, rfl⟩ := exists_get?_of_find? h
  exact mem_ids.2 ⟨a, List.mem_of_find?_eq_some ha, rfl⟩

theorem find?_of_refers {v : Value} {id : AtomId} (hv : Refers v id) (hid : id ∈ s.ids) :
    s.find? (.ofValue v) = some id := by
  obtain ⟨w, hw⟩ := hv
  rw [hw]
  simp [find?, contains_iff.2 hid]

/-- Whether the children of all that is kept are kept or on the list. -/
def Pending (s : Store) (todo : List Reference) (kept : List AtomId) : Prop :=
  ∀ id ∈ kept, ∀ ref, s.ChildOf ref id → ref ∈ kept ∨ ∃ r ∈ todo, s.find? r = some ref

/-- A child that is not on the rest of the list is the next atom or was kept before. -/
theorem Pending.next {r : Reference} {todo : List Reference} {kept : List AtomId} {x : AtomId}
    (hp : s.Pending (r :: todo) kept) (hr : s.find? r = some x) :
    ∀ id ∈ kept, ∀ ref, s.ChildOf ref id → ref ∈ x :: kept ∨ ∃ q ∈ todo, s.find? q = some ref := by
  intro id hid ref href
  rcases hp id hid ref href with hin | ⟨q, hq, hfind⟩
  · exact .inl (List.mem_cons_of_mem _ hin)
  · rcases List.mem_cons.1 hq with rfl | hq
    · rw [hr] at hfind
      cases hfind
      exact .inl (List.mem_cons_self ..)
    · exact .inr ⟨q, hq, hfind⟩

theorem Pending.again {r : Reference} {todo : List Reference} {kept : List AtomId} {x : AtomId}
    (hp : s.Pending (r :: todo) kept) (hr : s.find? r = some x) (hk : x ∈ kept) :
    s.Pending todo kept := by
  intro id hid ref href
  refine (hp.next hr id hid ref href).imp_left fun hin => ?_
  rcases List.mem_cons.1 hin with rfl | hin
  · exact hk
  · exact hin

section

variable (h : s.Inv) (hs : s.Spelled)
include h hs

/-- The references of an atom are those of its children. -/
theorem find?_leads {a : Atom} (ha : a ∈ s.atoms) {r : Reference} (hr : r ∈ leads a) :
    ∃ ref ∈ a.outgoing, s.find? r = some ref := by
  simp only [leads, List.mem_reverse, List.mem_map] at hr
  obtain ⟨v, hv, rfl⟩ := hr
  obtain ⟨ref, href, hrefers⟩ := exists_of_mem_forall₂ (hs a ha).flip hv
  exact ⟨ref, href, find?_of_refers hrefers (h.formed.older a ha ref href).2⟩

theorem exists_mem_leads {a : Atom} (ha : a ∈ s.atoms) {ref : AtomId} (href : ref ∈ a.outgoing) :
    ∃ r ∈ leads a, s.find? r = some ref := by
  obtain ⟨v, hv, hrefers⟩ := exists_of_mem_forall₂ (hs a ha) href
  refine ⟨.ofValue v, ?_, find?_of_refers hrefers (h.formed.older a ha ref href).2⟩
  simp only [leads, List.mem_reverse]
  exact List.mem_map_of_mem hv

/-- What is kept in the end was kept at first or something on the list leads to it. -/
theorem Walk.ledTo {todo : List Reference} {kept kept' : List AtomId}
    (hw : s.Walk todo kept (.ok kept')) :
    ∀ id ∈ kept', id ∈ kept ∨ ∃ r ∈ todo, ∃ root, s.find? r = some root ∧ s.LedTo [root] id := by
  generalize ho : Except.ok kept' = o at hw
  induction hw with
  | done =>
    cases ho
    exact fun id hid => .inl hid
  | unknown => cases ho
  | again hr ha hk hw ih =>
    intro id hid
    rcases ih ho id hid with hid | ⟨q, hq, hled⟩
    · exact .inl hid
    · exact .inr ⟨q, List.mem_cons_of_mem _ hq, hled⟩
  | @keep r todo kept a o hr ha hk hw ih =>
    have hmem := List.mem_of_find?_eq_some ha
    intro id hid
    rcases ih ho id hid with hid | ⟨q, hq, root, hroot, hled⟩
    · rcases List.mem_cons.1 hid with rfl | hid
      · exact .inr ⟨r, List.mem_cons_self .., _, hr, _, List.mem_singleton_self _, .refl⟩
      · exact .inl hid
    · rcases List.mem_append.1 hq with hq | hq
      · -- A child of the atom leads to it, and the atom to its child.
        obtain ⟨ref, href, hfind⟩ := find?_leads h hs hmem hq
        obtain ⟨x, hx, hpath⟩ := hled
        rw [hroot] at hfind
        cases hfind
        rw [List.mem_singleton.1 hx] at hpath
        exact .inr ⟨r, List.mem_cons_self .., _, hr, _, List.mem_singleton_self _,
          hpath.tail ⟨a, hmem, rfl, href⟩⟩
      · exact .inr ⟨q, List.mem_cons_of_mem _ hq, root, hroot, hled⟩

theorem Pending.keep {r : Reference} {todo : List Reference} {kept : List AtomId} {a : Atom}
    (hp : s.Pending (r :: todo) kept) (hr : s.find? r = some a.id) (ha : s.get? a.id = some a) :
    s.Pending (leads a ++ todo) (a.id :: kept) := by
  intro id hid ref href
  rcases List.mem_cons.1 hid with rfl | hid
  · -- The children of the atom itself are what it puts on the list.
    obtain ⟨b, hb, hsame, hout⟩ := href
    have hget := get?_eq_some h hb
    rw [hsame, ha] at hget
    cases hget
    obtain ⟨q, hq, hfind⟩ := exists_mem_leads h hs hb hout
    exact .inr ⟨q, List.mem_append_left _ hq, hfind⟩
  · rcases hp.next hr id hid ref href with hin | ⟨q, hq, hfind⟩
    · exact .inl hin
    · exact .inr ⟨q, List.mem_append_right _ hq, hfind⟩

/-- If the children of all that is kept are kept or on the list, then in the end everything on the
list is kept, and so are all children. -/
theorem Walk.closed {todo : List Reference} {kept kept' : List AtomId}
    (hw : s.Walk todo kept (.ok kept')) (hp : s.Pending todo kept) :
    (∀ id ∈ kept, id ∈ kept') ∧ (∀ r ∈ todo, ∀ id, s.find? r = some id → id ∈ kept') ∧
      ∀ id ∈ kept', ∀ ref, s.ChildOf ref id → ref ∈ kept' := by
  generalize ho : Except.ok kept' = o at hw
  induction hw with
  | done =>
    cases ho
    refine ⟨fun id hid => hid, nofun, fun id hid ref href => ?_⟩
    rcases hp id hid ref href with hin | ⟨_, hnil, _⟩
    · exact hin
    · cases hnil
  | unknown => cases ho
  | @again r todo kept a o hr ha hk hw ih =>
    obtain ⟨hold, htodo, hclosed⟩ := ih (hp.again hr hk) ho
    refine ⟨hold, List.forall_mem_cons.2 ⟨fun id hfind => ?_, htodo⟩, hclosed⟩
    rw [hr] at hfind
    cases hfind
    exact hold _ hk
  | @keep r todo kept a o hr ha hk hw ih =>
    obtain ⟨hold, htodo, hclosed⟩ := ih (hp.keep h hs hr ha) ho
    obtain ⟨hatom, hbefore⟩ := List.forall_mem_cons.1 hold
    obtain ⟨-, hrest⟩ := List.forall_mem_append.1 htodo
    refine ⟨hbefore, List.forall_mem_cons.2 ⟨fun id hfind => ?_, hrest⟩, hclosed⟩
    rw [hr] at hfind
    cases hfind
    exact hatom

/-- The list is stopped by its first unknown reference and by nothing else: those that atoms put on
it are known. -/
theorem Walk.outcome {todo : List Reference} {kept : List AtomId}
    {o : Except Error (List AtomId)} (hw : s.Walk todo kept o) :
    match todo.find? fun r => (s.find? r).isNone with
    | some r => o = .error (.notFound r.toValue)
    | none => ∃ kept', o = .ok kept' := by
  induction hw with
  | done => exact ⟨_, rfl⟩
  | unknown hr => simp [hr]
  | again hr ha hk hw ih => simpa [hr] using ih
  | @keep r todo kept a o hr ha hk hw ih =>
    have hknown : (leads a).find? (fun r => (s.find? r).isNone) = none := by
      rw [List.find?_eq_none]
      intro q hq
      obtain ⟨ref, _, hfind⟩ := find?_leads h hs (List.mem_of_find?_eq_some ha) hq
      simp [hfind]
    simpa [hr, hknown] using ih

end

/-- Where nothing is kept at first, all that the list leads to is kept in the end. -/
theorem Walk.mem_iff (h : s.Inv) (hs : s.Spelled) {todo : List Reference} {kept : List AtomId}
    (hw : s.Walk todo [] (.ok kept)) (id : AtomId) :
    id ∈ kept ↔ id ∈ s.ids ∧ s.LedTo (todo.filterMap s.find?) id := by
  obtain ⟨_, htodo, hclosed⟩ := hw.closed h hs nofun
  constructor
  · intro hid
    rcases hw.ledTo h hs id hid with hnil | ⟨r, hr, root, hroot, x, hx, hpath⟩
    · cases hnil
    · obtain rfl := List.mem_singleton.1 hx
      refine ⟨?_, x, List.mem_filterMap.2 ⟨r, hr, hroot⟩, hpath⟩
      rcases hpath.cases_head with rfl | ⟨y, ⟨a, ha, _, href⟩, _⟩
      · exact mem_ids_of_find? hroot
      · exact (h.formed.older a ha id href).2
  · rintro ⟨-, root, hroot, hpath⟩
    obtain ⟨r, hr, hfind⟩ := List.mem_filterMap.1 hroot
    induction hpath using Relation.ReflTransGen.head_induction_on with
    | refl => exact htodo r hr root hfind
    | head hstep _ ih => exact hclosed _ ih _ hstep

theorem Walk.nodup {todo : List Reference} {kept kept' : List AtomId}
    (hw : s.Walk todo kept (.ok kept')) (hk : kept.Nodup) : kept'.Nodup := by
  generalize ho : Except.ok kept' = o at hw
  induction hw with
  | done =>
    cases ho
    exact hk
  | unknown => cases ho
  | again hr ha hin hw ih => exact ih hk ho
  | keep hr ha hout hw ih => exact ih (List.nodup_cons.2 ⟨hout, hk⟩) ho

/-! ## The copy -/

/-- The store of the atoms that were kept, put into the indexes in ascending order. -/
def copyOf (s : Store) (kept : List AtomId) : Store :=
  let copy := ((ascending kept).filterMap s.get?).foldl index empty
  { copy with nextId := s.nextId, tally := ⟨kept.length, 0, 0⟩ }

/-- A single pass over the store makes the copy of all that the roots lead to. -/
theorem subset_eq_copyOf (h : s.Inv) {roots kept : List AtomId} (hn : kept.Nodup)
    (hk : ∀ id, id ∈ kept ↔ id ∈ s.ids ∧ s.LedTo roots id) : s.subset roots = s.copyOf kept := by
  have hc := h.subset roots
  have hx := excerpt_subset h roots
  have hids : (s.subset roots).ids = ascending kept := by
    refine eq_of_ascending hc.formed.ascending (ascending_ascending kept) fun id => ?_
    rw [mem_ascending, hk, ← contains_iff, contains_subset_iff h]
  have hatoms : (closure roots s.atoms).1 = (ascending kept).filterMap s.get? := by
    rw [← atoms_subset, ← hids]
    unfold ids
    rw [List.filterMap_map]
    have hget : ∀ a ∈ (s.subset roots).atoms, (s.get? ∘ Atom.id) a = some a :=
      fun a ha => get?_eq_some h (hx.mem ha)
    rw [List.filterMap_congr hget, List.filterMap_some]
  have hlength : (closure roots s.atoms).1.length = kept.length := by
    have hperm : (ascending kept).Perm kept := by
      rw [List.perm_ext_iff_of_nodup ((ascending_ascending kept).imp Nat.ne_of_lt) hn]
      exact fun id => mem_ascending
    rw [← atoms_subset, ← hperm.length_eq, ← hids]
    exact (List.length_map _).symm
  unfold subset copyOf
  dsimp only
  rw [hatoms] at hlength ⊢
  rw [hlength]

/-- What the copy of the atoms that some roots lead to has to be: the same records under the same
identifiers, the indexes and matches of the store as far as their atoms were kept, and new atoms are
numbered as in the store. -/
structure IsCopy (s c : Store) (roots : List AtomId) : Prop where
  get? : ∀ id a, c.get? id = some a ↔ s.get? id = some a ∧ s.LedTo roots id
  ids : c.ids = s.ids.filter c.contains
  byName : ∀ name, c.byName.ids name = (s.byName.ids name).filter c.contains
  byKind : ∀ k, c.byKind.ids k = (s.byKind.ids k).filter c.contains
  incoming : ∀ id, c.incoming.ids id = (s.incoming.ids id).filter c.contains
  byStructure : ∀ k out, c.byStructure.ids (k, out) = (s.byStructure.ids (k, out)).filter c.contains
  nextId : c.nextId = s.nextId
  found : ∀ p b, c.Holds b → ∃ ms, s.matchesFrom p b = .ok ms ∧
    c.matchesFrom p b = .ok (ms.filter fun m => c.contains m.atomId)

theorem isCopy_subset (h : s.Inv) (roots : List AtomId) : s.IsCopy (s.subset roots) roots := by
  have hc := h.subset roots
  have hx := excerpt_subset h roots
  refine ⟨fun id a => ?_, hx.ids_eq h, fun name => ?_, fun k => ?_, fun id => ?_, fun k out => ?_,
    rfl, fun p b hb => hx.matchesFrom_eq h hc p hb⟩
  · constructor
    · intro hget
      have hin : (s.subset roots).contains id = true := Option.isSome_iff_exists.2 ⟨a, hget⟩
      exact ⟨(hx.get?_eq h hc hin).symm.trans hget, ((contains_subset_iff h roots).1 hin).2⟩
    · rintro ⟨hget, hled⟩
      have hid : id ∈ s.ids := contains_iff.1 (Option.isSome_iff_exists.2 ⟨a, hget⟩)
      rw [hx.get?_eq h hc ((contains_subset_iff h roots).2 ⟨hid, hled⟩), hget]
  · have h1 := hc.indexed.named_eq name
    have h2 := h.indexed.named_eq name
    unfold named at h1 h2
    rw [h1, h2, hx.idsWhere_eq h]
  · have h1 := hc.indexed.idsOf_eq k
    have h2 := h.indexed.idsOf_eq k
    unfold idsOf at h1 h2
    rw [h1, h2, hx.idsWhere_eq h]
  · have h1 := hc.indexed.linksOver_eq id
    have h2 := h.indexed.linksOver_eq id
    unfold linksOver at h1 h2
    rw [h1, h2, hx.idsWhere_eq h]
  · rw [hc.indexed.structure_eq, h.indexed.structure_eq, hx.idsWhere_eq h]

/-! ## Copies of listed atoms -/

theorem mapM_locate (s : Store) (todo : List Reference) :
    todo.mapM s.locate =
      match todo.find? fun r => (s.find? r).isNone with
      | some r => .error (.notFound r.toValue)
      | none => .ok (todo.filterMap s.find?) := by
  induction todo with
  | nil => rfl
  | cons r todo ih =>
    rw [List.mapM_cons, ih]
    cases hr : s.find? r with
    | none => simp [locate, hr, bind, Except.bind]
    | some id =>
      simp only [locate, hr, List.find?_cons, Option.isNone_some, List.filterMap_cons]
      cases todo.find? fun r => (s.find? r).isNone <;> rfl

/-- In every reachable store the worklist of a list of references runs out, in one way. It fails, for
an unknown reference of the list, if there is one; otherwise the copy of what it has kept holds just
the atoms that the listed ones lead to, and matches what the store matches of them. -/
theorem subsetOf_isCopy (h : s.Reachable) (vs : List Value) :
    ∃ outcome, (∀ o, s.Walk (vs.map Reference.ofValue).reverse [] o ↔ o = outcome) ∧
      s.subsetOf vs = outcome.map s.copyOf ∧
      ((∃ e, s.subsetOf vs = .error e) ↔ ∃ v ∈ vs, s.find? (.ofValue v) = none) ∧
      (∀ e, s.subsetOf vs = .error e →
        ∃ v ∈ vs, s.find? (.ofValue v) = none ∧ e = .notFound v) ∧
      ∀ c, s.subsetOf vs = .ok c →
        s.IsCopy c (vs.filterMap fun v => s.find? (.ofValue v)) := by
  have hi := h.inv
  obtain ⟨outcome, hw⟩ := exists_walk s (vs.map Reference.ofValue).reverse []
  have hout := hw.outcome hi h.spelled
  refine ⟨outcome, fun o => ⟨fun ho => ho.unique hw, fun ho => ho ▸ hw⟩, ?_⟩
  unfold subsetOf
  rw [mapM_locate]
  cases hfirst : (vs.map Reference.ofValue).reverse.find? fun r => (s.find? r).isNone with
  | some r =>
    obtain ⟨v, hv, rfl⟩ : ∃ v ∈ vs, Reference.ofValue v = r := by
      simpa using List.mem_of_find?_eq_some hfirst
    have hnone : s.find? (.ofValue v) = none := by simpa using List.find?_some hfirst
    simp only [hfirst] at hout
    subst hout
    refine ⟨rfl, ⟨fun _ => ⟨v, hv, hnone⟩, fun _ => ⟨_, rfl⟩⟩, fun e he => ?_, nofun⟩
    cases he
    exact ⟨v, hv, hnone, congrArg Error.notFound (Reference.toValue_ofValue v)⟩
  | none =>
    simp only [hfirst] at hout
    obtain ⟨kept, rfl⟩ := hout
    have hroots : (vs.map Reference.ofValue).reverse.filterMap s.find? =
        (vs.filterMap fun v => s.find? (.ofValue v)).reverse := by
      rw [List.filterMap_reverse, List.filterMap_map]
      rfl
    rw [hroots]
    -- Nothing is kept at first, so the kept atoms are all that the listed ones lead to.
    have hkept : ∀ id, id ∈ kept ↔ id ∈ s.ids ∧
        s.LedTo (vs.filterMap fun v => s.find? (.ofValue v)).reverse id := by
      rw [← hroots]
      exact hw.mem_iff hi h.spelled
    refine ⟨congrArg Except.ok (subset_eq_copyOf hi (hw.nodup List.nodup_nil) hkept),
      ⟨nofun, ?_⟩, nofun, fun c hc => ?_⟩
    · rintro ⟨v, hv, hnone⟩
      have := List.find?_eq_none.1 hfirst (.ofValue v) (by simpa using ⟨v, hv, rfl⟩)
      simp [hnone] at this
    · cases hc
      have hcopy := isCopy_subset hi (vs.filterMap fun v => s.find? (.ofValue v)).reverse
      exact { hcopy with get? := by simpa [LedTo] using hcopy.get? }

/-- The copy of a link that holds the same node twice, from a store with a link and a node besides;
a repeated and unsorted list of references, one of them to no atom. -/
theorem subsetOf_isCopy_shared :
    let node (name : String) : Pattern := .node (.node .concept) name
    let first := ((assert (.link (.link .list) [node "a", node "b", node "a"]) none).run.run empty).2
    let s := ((assert (.link (.link .inheritance) [node "c", node "b"]) none).run.run first).2
    s.Reachable ∧ s.ids = [1, 2, 3, 4, 5] ∧
      s.subsetOf [.int 3, .int 9, .int 2] = .error (.notFound (.int 9)) ∧
      ∃ c, s.subsetOf [.int 3, .float 2.0, .int 3] = .ok c ∧ c.ids = [1, 2, 3] ∧
        c.incoming.ids 2 = [3] ∧ s.incoming.ids 2 = [3, 5] ∧ s.IsCopy c [3, 2, 3] := by
  intro node first s
  have hs : s.Reachable := by
    refine (Reachable.single _).assert _ none ?_
    rintro _ ⟨⟩
  have hc : s.subsetOf [.int 3, .float 2.0, .int 3] = .ok (s.subset [3, 2, 3]) := rfl
  obtain ⟨_, _, _, _, _, hcopy⟩ := subsetOf_isCopy hs [.int 3, .float 2.0, .int 3]
  exact ⟨hs, by decide +kernel, rfl, s.subset [3, 2, 3], hc, by decide +kernel, by decide +kernel,
    by decide +kernel, hcopy _ hc⟩

end Store

end Credence
