import Credence.Proofs.Store.Growth
/-!
# The atom of a tree

Asserting a tree looks for the oldest atom of every form, from the leaves up, so a
tree has one atom that stands for it, or none. That atom is found again whatever is stored later, and
it stands for one tree only.
-/

namespace Credence

namespace Store

open Pattern

variable {s s' : Store}

/-! ## The oldest atom of a form -/

/-- The oldest atom of a form. -/
def oldest (s : Store) (form : Form) : Option AtomId :=
  (s.atoms.find? fun a => a.form = form).map Atom.id

theorem findLink_eq_oldest (h : s.Inv) (k : LinkKind) (out : List AtomId) :
    s.findLink k out = s.oldest (.link k out) := by
  unfold findLink oldest
  rw [h.indexed.structure_eq]
  unfold idsWhere
  rw [List.head?_map, List.head?_filter]

theorem findNode_eq_oldest (h : s.Inv) (k : NodeKind) (name : String) :
    s.findNode k name = s.oldest (.node k name) := by
  unfold findNode oldest
  rw [h.indexed.named_eq]
  unfold idsWhere
  rw [List.find?_map, List.find?_filter, ← List.head?_filter, ← List.head?_filter]
  -- The name of an atom and a kind stored under its identifier make up its form.
  refine congrArg (fun as => as.head?.map Atom.id) (List.filter_congr fun a ha => ?_)
  have hkind : s.hasKind (.node k) a.id = decide (a.kind = .node k) := by
    unfold hasKind
    rw [get?_eq_some h ha]
  refine decide_eq_decide.2 ?_
  show decide (a.name? = some name) = true ∧ s.hasKind (.node k) a.id = true ↔ a.form = .node k name
  rw [hkind, decide_eq_true_eq, decide_eq_true_eq]
  unfold Atom.name? Atom.kind Form.kind
  cases a.form with
  | node l n => simp [and_comm]
  | link l out => simp

theorem mem_of_oldest {form : Form} {id : AtomId} (ho : s.oldest form = some id) :
    ∃ a ∈ s.atoms, a.id = id ∧ a.form = form := by
  obtain ⟨a, ha, rfl⟩ := Option.map_eq_some_iff.1 ho
  exact ⟨a, List.mem_of_find?_eq_some ha, rfl, by simpa using List.find?_some ha⟩

theorem oldest_eq_none_iff {form : Form} :
    s.oldest form = none ↔ ∀ a ∈ s.atoms, a.form ≠ form := by
  simp [oldest]

/-- An atom under the next identifier is the oldest of its form if there is no other. -/
theorem oldest_inserted (form : Form) (truth : Truth) (written : List Value) (f : Form) :
    (s.inserted form truth written).oldest f =
      (s.oldest f).or (if form = f then some s.nextId else none) := by
  unfold oldest
  rw [atoms_inserted, List.find?_append, Option.map_or]
  congr 1
  by_cases hf : form = f <;> simp [hf]

theorem oldest_retruth (id : AtomId) (t : Truth) (f : Form) :
    (s.retruth id t).oldest f = s.oldest f := by
  unfold oldest
  rw [atoms_retruth]
  induction s.atoms with
  | nil => rfl
  | cons a as ih =>
    rw [List.map_cons, List.find?_cons, List.find?_cons]
    have hform : (if a.id = id then { a with truth := t } else a).form = a.form := by
      split <;> rfl
    rw [hform]
    split
    · show some _ = some _
      split <;> rfl
    · exact ih

/-- Whether every form keeps its oldest atom. -/
def Keeps (s s' : Store) : Prop := ∀ form id, s.oldest form = some id → s'.oldest form = some id

theorem Change.keeps (hc : Change s s') : Keeps s s' := by
  intro f id ho
  cases hc with
  | insert hf hr ht hw => rw [oldest_inserted, ho, Option.some_or]
  | retruth id ht => rwa [oldest_retruth]

theorem Changes.keeps (hc : Changes s s') : Keeps s s' := by
  induction hc with
  | refl => exact fun _ _ ho => ho
  | tail _ hc ih => exact fun f id ho => hc.keeps f id (ih f id ho)

/-! ## The atom of a tree -/

mutual

/-- The atom that asserting a tree finds, if every part of the tree is there. -/
def existing (s : Store) : Pattern → Option AtomId
  | .node (.node k) name => s.oldest (.node k name)
  | .link (.link k) cs =>
    match existingList s cs with
    | some ids => s.oldest (.link k ids)
    | none => none
  | _ => none

/-- The atoms of several trees, if all are there. -/
def existingList (s : Store) : List Pattern → Option (List AtomId)
  | [] => some []
  | c :: cs =>
    match existing s c, existingList s cs with
    | some id, some ids => some (id :: ids)
    | _, _ => none

end

theorem existing_link (k : LinkKind) (cs : List Pattern) :
    s.existing (.link (.link k) cs) = (s.existingList cs).bind fun ids => s.oldest (.link k ids) := by
  unfold existing
  cases s.existingList cs <;> rfl

theorem existingList_cons_eq_some {c : Pattern} {cs : List Pattern} {ids : List AtomId} :
    s.existingList (c :: cs) = some ids ↔
      ∃ id rest, s.existing c = some id ∧ s.existingList cs = some rest ∧ ids = id :: rest := by
  rw [existingList]
  cases s.existing c <;> cases s.existingList cs <;> simp [eq_comm]

theorem existingList_eq_some_iff {cs : List Pattern} {ids : List AtomId} :
    s.existingList cs = some ids ↔ List.Forall₂ (fun c id => s.existing c = some id) cs ids := by
  induction cs generalizing ids with
  | nil =>
    show some [] = some ids ↔ _
    rw [List.forall₂_nil_left_iff, Option.some_inj, eq_comm]
  | cons c cs ih =>
    rw [existingList_cons_eq_some, List.forall₂_cons_left_iff]
    simp only [ih, exists_and_left]

mutual

/-- The atom of a tree is found again. -/
theorem Keeps.existing (hk : Keeps s s') {p : Pattern} {id : AtomId}
    (he : s.existing p = some id) : s'.existing p = some id := by
  cases p with
  | var v => cases he
  | node k name =>
    cases k with
    | node k => exact hk _ _ he
    | link k => cases he
  | link k cs =>
    cases k with
    | node k => cases he
    | link k =>
      rw [existing_link] at he ⊢
      obtain ⟨ids, hids, ho⟩ := Option.bind_eq_some_iff.1 he
      rw [hk.existingList hids]
      exact hk _ _ ho

theorem Keeps.existingList (hk : Keeps s s') {cs : List Pattern} {ids : List AtomId}
    (he : s.existingList cs = some ids) : s'.existingList cs = some ids := by
  cases cs with
  | nil => exact he
  | cons c cs =>
    obtain ⟨id, rest, hid, hrest, rfl⟩ := existingList_cons_eq_some.1 he
    exact existingList_cons_eq_some.2 ⟨id, rest, hk.existing hid, hk.existingList hrest, rfl⟩

end

/-- The form that asserting a tree looks for, if its children are there. -/
def formOf (s : Store) : Pattern → Option Form
  | .node (.node k) name => some (.node k name)
  | .link (.link k) cs => (s.existingList cs).map (.link k)
  | _ => none

theorem existing_eq_some_iff {p : Pattern} {id : AtomId} :
    s.existing p = some id ↔ ∃ form, s.formOf p = some form ∧ s.oldest form = some id := by
  rw [← Option.bind_eq_some_iff]
  cases p with
  | var v => rfl
  | node k name => cases k <;> rfl
  | link k cs =>
    cases k with
    | node k => rfl
    | link k =>
      rw [existing_link]
      show _ ↔ ((s.existingList cs).map (Form.link k)).bind s.oldest = some id
      rw [Option.bind_map]
      rfl

theorem existing_eq_oldest {p : Pattern} {form : Form} (hf : s.formOf p = some form) :
    s.existing p = s.oldest form := by
  refine Option.ext fun id => existing_eq_some_iff.trans ⟨?_, fun ho => ⟨form, hf, ho⟩⟩
  rintro ⟨f, hform, ho⟩
  rwa [Option.some.inj (hf.symm.trans hform)]

theorem mem_ids_of_existing {p : Pattern} {id : AtomId} (he : s.existing p = some id) :
    id ∈ s.ids := by
  obtain ⟨form, _, ho⟩ := existing_eq_some_iff.1 he
  obtain ⟨a, ha, hid, _⟩ := mem_of_oldest ho
  exact mem_ids.2 ⟨a, ha, hid⟩

theorem mem_ids_of_existingList {cs : List Pattern} {ids : List AtomId}
    (he : s.existingList cs = some ids) : ∀ id ∈ ids, id ∈ s.ids := by
  intro id hid
  obtain ⟨c, _, hc⟩ := exists_of_mem_forall₂ (existingList_eq_some_iff.1 he) hid
  exact mem_ids_of_existing hc

theorem length_of_existingList {cs : List Pattern} {ids : List AtomId}
    (he : s.existingList cs = some ids) : ids.length = cs.length :=
  (existingList_eq_some_iff.1 he).length_eq.symm

theorem refs_of_formOf {p : Pattern} {form : Form} (hf : s.formOf p = some form) :
    ∀ ref ∈ form.outgoing, ref ∈ s.ids := by
  unfold formOf at hf
  split at hf
  · cases hf
    exact nofun
  · obtain ⟨ids, hids, rfl⟩ := Option.map_eq_some_iff.1 hf
    exact mem_ids_of_existingList hids
  · cases hf

/-! ## One tree for an atom -/

theorem form_unique (h : s.Inv) {f g : Form} {id : AtomId} (hf : s.oldest f = some id)
    (hg : s.oldest g = some id) : f = g := by
  obtain ⟨a, ha, hid, rfl⟩ := mem_of_oldest hf
  obtain ⟨c, hc, hid', rfl⟩ := mem_of_oldest hg
  have heq := get?_eq_some h ha
  rw [hid, ← hid', get?_eq_some h hc] at heq
  rw [Option.some.inj heq]

mutual

theorem formOf_inj (h : s.Inv) {p q : Pattern} {form : Form} (hp : s.formOf p = some form)
    (hq : s.formOf q = some form) : p = q := by
  cases p with
  | var v => cases hp
  | node k name =>
    cases k with
    | link k => cases hp
    | node k =>
      cases hp
      unfold formOf at hq
      split at hq
      · cases hq
        rfl
      · obtain ⟨_, _, heq⟩ := Option.map_eq_some_iff.1 hq
        cases heq
      · cases hq
  | link k cs =>
    cases k with
    | node k => cases hp
    | link k =>
      obtain ⟨ids, hids, rfl⟩ := Option.map_eq_some_iff.1 hp
      unfold formOf at hq
      split at hq
      · cases hq
      · obtain ⟨ids', hids', heq⟩ := Option.map_eq_some_iff.1 hq
        cases heq
        rw [existingList_inj h hids hids']
      · cases hq

/-- Trees whose children have the same atoms are the same. -/
theorem existingList_inj (h : s.Inv) {cs ds : List Pattern} {ids : List AtomId}
    (hc : s.existingList cs = some ids) (hd : s.existingList ds = some ids) : cs = ds := by
  cases cs with
  | nil =>
    cases hc
    cases ds with
    | nil => rfl
    | cons d ds =>
      obtain ⟨_, _, _, _, heq⟩ := existingList_cons_eq_some.1 hd
      cases heq
  | cons c cs =>
    obtain ⟨id, rest, hid, hrest, rfl⟩ := existingList_cons_eq_some.1 hc
    cases ds with
    | nil => cases hd
    | cons d ds =>
      obtain ⟨id', rest', hid', hrest', heq⟩ := existingList_cons_eq_some.1 hd
      cases heq
      obtain ⟨f, hf, hof⟩ := existing_eq_some_iff.1 hid
      obtain ⟨g, hg, hog⟩ := existing_eq_some_iff.1 hid'
      obtain rfl := form_unique h hof hog
      rw [formOf_inj h hf hg, existingList_inj h hrest hrest']

end

/-- An atom stands for one tree. -/
theorem existing_inj (h : s.Inv) {p q : Pattern} {id : AtomId} (hp : s.existing p = some id)
    (hq : s.existing q = some id) : p = q := by
  obtain ⟨f, hf, hof⟩ := existing_eq_some_iff.1 hp
  obtain ⟨g, hg, hog⟩ := existing_eq_some_iff.1 hq
  obtain rfl := form_unique h hof hog
  exact formOf_inj h hf hg

/-! ## One more atom -/

section

variable {form : Form} {truth : Truth} {written : List Value}

/-- No link holds an atom that is not there yet, and none is its own child. -/
theorem oldest_of_nextId (h : s.Inv) (hr : ∀ ref ∈ form.outgoing, ref ∈ s.ids) (k : LinkKind)
    {ids : List AtomId} (hin : s.nextId ∈ ids) :
    (s.inserted form truth written).oldest (.link k ids) = none := by
  refine oldest_eq_none_iff.2 fun a ha hform => ?_
  have hout : s.nextId ∈ a.outgoing := by
    unfold Atom.outgoing
    rw [hform]
    exact hin
  rw [atoms_inserted] at ha
  rcases List.mem_append.1 ha with ha | ha
  · exact nextId_not_mem h (h.formed.older a ha _ hout).2
  · obtain rfl := List.mem_singleton.1 ha
    exact nextId_not_mem h (hr _ hout)

theorem keeps_inserted : Keeps s (s.inserted form truth written) :=
  fun f id ho => by rw [oldest_inserted, ho, Option.some_or]

mutual

/-- An atom for a tree that had none is found for this tree only. -/
theorem existing_of_inserted (h : s.Inv) (hr : ∀ ref ∈ form.outgoing, ref ∈ s.ids) {p : Pattern}
    {id : AtomId} (he : (s.inserted form truth written).existing p = some id)
    (hnone : s.existing p = none) : s.formOf p = some form ∧ id = s.nextId := by
  have hnew : ∀ f, s.oldest f = none → (s.inserted form truth written).oldest f = some id →
      form = f ∧ id = s.nextId := by
    intro f hf ho
    rw [oldest_inserted, hf, Option.none_or] at ho
    split at ho
    · next hff =>
      cases ho
      exact ⟨hff, rfl⟩
    · cases ho
  cases p with
  | var v => cases he
  | node k name =>
    cases k with
    | link k => cases he
    | node k =>
      obtain ⟨rfl, hid⟩ := hnew _ hnone he
      exact ⟨rfl, hid⟩
  | link k cs =>
    cases k with
    | node k => cases he
    | link k =>
      rw [existing_link] at he hnone
      obtain ⟨ids, hids, ho⟩ := Option.bind_eq_some_iff.1 he
      cases hcs : s.existingList cs with
      | some out =>
        rw [hcs] at hnone
        obtain rfl := Option.some.inj ((keeps_inserted.existingList hcs).symm.trans hids)
        obtain ⟨rfl, hid⟩ := hnew _ hnone ho
        exact ⟨congrArg (Option.map (Form.link k)) hcs, hid⟩
      | none =>
        -- A child would have to be the new atom, which no link holds.
        rw [oldest_of_nextId h hr k (nextId_mem_of_existingList h hr hids hcs)] at ho
        cases ho

theorem nextId_mem_of_existingList (h : s.Inv) (hr : ∀ ref ∈ form.outgoing, ref ∈ s.ids)
    {cs : List Pattern} {ids : List AtomId}
    (he : (s.inserted form truth written).existingList cs = some ids)
    (hnone : s.existingList cs = none) : s.nextId ∈ ids := by
  cases cs with
  | nil => cases hnone
  | cons c cs =>
    obtain ⟨id, rest, hid, hrest, rfl⟩ := existingList_cons_eq_some.1 he
    cases hc : s.existing c with
    | none =>
      obtain ⟨_, rfl⟩ := existing_of_inserted h hr hid hc
      exact List.mem_cons_self ..
    | some old =>
      cases hcs : s.existingList cs with
      | none => exact List.mem_cons_of_mem _ (nextId_mem_of_existingList h hr hrest hcs)
      | some olds =>
        rw [existingList_cons_eq_some.2 ⟨old, olds, hc, hcs, rfl⟩] at hnone
        cases hnone

end

end

/-- Storing the atom of a tree that has none changes what is found for this tree only. -/
theorem existing_inserted (h : s.Inv) {q : Pattern} {form : Form} (hq : s.formOf q = some form)
    (hnew : s.oldest form = none) (truth : Truth) (written : List Value) (p : Pattern) :
    (s.inserted form truth written).existing p =
      if p = q then some s.nextId else s.existing p := by
  have hr := refs_of_formOf hq
  split
  · next hpq =>
    subst hpq
    have hform : (s.inserted form truth written).formOf p = some form := by
      unfold formOf at hq ⊢
      split at hq
      · exact hq
      · obtain ⟨ids, hids, rfl⟩ := Option.map_eq_some_iff.1 hq
        exact congrArg (Option.map _) (keeps_inserted.existingList hids)
      · cases hq
    refine existing_eq_some_iff.2 ⟨form, hform, ?_⟩
    rw [oldest_inserted, hnew, Option.none_or, if_pos rfl]
  · next hpq =>
    cases he : s.existing p with
    | some id => exact keeps_inserted.existing he
    | none =>
      cases he' : (s.inserted form truth written).existing p with
      | none => rfl
      | some id => exact absurd (formOf_inj h (existing_of_inserted h hr he' he).1 hq) hpq

theorem existing_retruth (s : Store) (id : AtomId) (t : Truth) (p : Pattern) :
    (s.retruth id t).existing p = s.existing p := by
  have hto : Keeps s (s.retruth id t) := fun f i ho => by rwa [oldest_retruth]
  have hfrom : Keeps (s.retruth id t) s := fun f i ho => by rwa [oldest_retruth] at ho
  refine Option.ext fun i => ⟨fun he => hfrom.existing he, fun he => hto.existing he⟩

end Store

end Credence
