import Credence.Proofs.Store.Existing
/-!
# What storing a tree does

A tree that fits its kinds is stored, and its atom is found afterwards; nothing
happens if it is there. Any other tree fails at its first part that does not fit, and
what comes before that part is stored by then. In both cases all that happens is that
trees get atoms which had none.
-/

namespace Credence

/-! ## Trees that fit -/

namespace Pattern

mutual

/-- Whether a tree can be stored: all nodes are of kinds of nodes and have names, all links are of
kinds of links and have as many children as their kinds take. -/
def fits : Pattern → Bool
  | .var _ => false
  | .node (.node _) name => !name.isEmpty
  | .node (.link _) _ => false
  | .link (.link k) cs => k.accepts cs.length && fitsList cs
  | .link (.node _) _ => false

/-- Whether all trees of a list can be stored. -/
def fitsList : List Pattern → Bool
  | [] => true
  | c :: cs => fits c && fitsList cs

end

mutual

/-- The trees that are complete before the first part that cannot be stored, from the leaves up
and left to right. -/
def beforeFault : Pattern → List Pattern
  | .link _ cs => beforeFaultList cs
  | _ => []

/-- The trees of a list that are complete before the first part that cannot be stored. -/
def beforeFaultList : List Pattern → List Pattern
  | [] => []
  | c :: cs => if c.fits then c :: beforeFaultList cs else beforeFault c

end

theorem fitsList_iff {cs : List Pattern} : fitsList cs = true ↔ ∀ c ∈ cs, c.fits = true := by
  induction cs with
  | nil => simp [fitsList]
  | cons c cs ih => simp [fitsList, ih]

theorem fits_of_mem {cs : List Pattern} (h : fitsList cs = true) {c : Pattern} (hc : c ∈ cs) :
    c.fits = true :=
  fitsList_iff.1 h c hc

theorem beforeFaultList_of_fits {cs : List Pattern} (h : fitsList cs = true) :
    beforeFaultList cs = cs := by
  induction cs with
  | nil => rfl
  | cons c cs ih =>
    obtain ⟨hc, hcs⟩ := Bool.and_eq_true_iff.1 h
    unfold beforeFaultList
    rw [if_pos (show c.fits = true from hc), ih hcs]

end Pattern

namespace Store

open Pattern

variable {s s' : Store}

/-! ## Trees that are there -/

mutual

/-- A tree that has an atom fits. -/
theorem fits_of_existing (h : s.Inv) {p : Pattern} {id : AtomId} (he : s.existing p = some id) :
    p.fits = true := by
  cases p with
  | var v => cases he
  | node k name =>
    cases k with
    | link k => cases he
    | node k =>
      obtain ⟨a, ha, _, hform⟩ := mem_of_oldest he
      have hfits := h.formed.fits a ha
      rw [hform] at hfits
      exact Bool.not_eq_true' _ ▸ hfits
  | link k cs =>
    cases k with
    | node k => cases he
    | link k =>
      rw [existing_link] at he
      obtain ⟨ids, hids, ho⟩ := Option.bind_eq_some_iff.1 he
      obtain ⟨a, ha, _, hform⟩ := mem_of_oldest ho
      have hfits := h.formed.fits a ha
      rw [hform] at hfits
      refine Bool.and_eq_true_iff.2 ⟨?_, fitsList_of_existingList h hids⟩
      rw [← length_of_existingList hids]
      exact hfits

theorem fitsList_of_existingList (h : s.Inv) {cs : List Pattern} {ids : List AtomId}
    (he : s.existingList cs = some ids) : fitsList cs = true := by
  cases cs with
  | nil => rfl
  | cons c cs =>
    obtain ⟨id, rest, hid, hrest, rfl⟩ := existingList_cons_eq_some.1 he
    exact Bool.and_eq_true_iff.2 ⟨fits_of_existing h hid, fitsList_of_existingList h hrest⟩

end

/-- A link that is there over its children is found. -/
theorem run_ensure_link_of_oldest {truth : Option Truth} {k : LinkKind} {cs : List Pattern}
    {ids : List AtomId} (hrun : (ensureList cs).run.run s = (.ok ids, s')) (h : s'.Inv)
    {id : AtomId} (ho : s'.oldest (.link k ids) = some id) :
    (ensure truth (.link (.link k) cs)).run.run s = (.ok id, s') := by
  have hfound : s'.findLink k ids = some id := (findLink_eq_oldest h k ids).trans ho
  unfold ensure
  rw [run_bind, hrun]
  show (get >>= _ : StoreM AtomId).run.run s' = _
  rw [run_get_bind, hfound]
  rfl

theorem run_ensureList_cons {c : Pattern} {id : AtomId}
    (hrun : (ensure none c).run.run s = (.ok id, s')) (cs : List Pattern) :
    (ensureList (c :: cs)).run.run s =
      (((ensureList cs).run.run s').1.map (id :: ·), ((ensureList cs).run.run s').2) := by
  rw [ensureList, run_bind, hrun]
  show (ensureList cs >>= _ : StoreM (List AtomId)).run.run s' = _
  rw [run_bind]
  generalize (ensureList cs).run.run s' = r
  obtain ⟨ids | e, u⟩ := r <;> rfl

mutual

/-- A tree that has an atom is found, and nothing is stored. -/
theorem run_ensure_of_existing (h : s.Inv) (truth : Option Truth) {p : Pattern} {id : AtomId}
    (he : s.existing p = some id) : (ensure truth p).run.run s = (.ok id, s) := by
  cases p with
  | var v => cases he
  | node k name =>
    cases k with
    | link k => cases he
    | node k =>
      have hfound : s.findNode k name = some id := (findNode_eq_oldest h k name).trans he
      unfold ensure
      rw [run_get_bind, hfound]
      rfl
  | link k cs =>
    cases k with
    | node k => cases he
    | link k =>
      rw [existing_link] at he
      obtain ⟨ids, hids, ho⟩ := Option.bind_eq_some_iff.1 he
      exact run_ensure_link_of_oldest (run_ensureList_of_existing h hids) h ho

theorem run_ensureList_of_existing (h : s.Inv) {cs : List Pattern} {ids : List AtomId}
    (he : s.existingList cs = some ids) : (ensureList cs).run.run s = (.ok ids, s) := by
  cases cs with
  | nil =>
    cases he
    rfl
  | cons c cs =>
    obtain ⟨id, rest, hid, hrest, rfl⟩ := existingList_cons_eq_some.1 he
    rw [run_ensureList_cons (run_ensure_of_existing h none hid), run_ensureList_of_existing h hrest]
    rfl

end

/-! ## Storing trees -/

/-- A node that is not there is stored if it has a name. -/
theorem run_ensure_node (h : s.Inv) (truth : Option Truth) {k : NodeKind} {name : String}
    (hnone : s.oldest (.node k name) = none) :
    (ensure truth (.node (.node k) name)).run.run s =
      if name.isEmpty then (.error (.missingName k), s)
      else (.ok s.nextId, s.inserted (.node k name) (truth.getD .default) []) := by
  have hmissing : s.findNode k name = none := (findNode_eq_oldest h k name).trans hnone
  unfold ensure
  rw [run_get_bind, hmissing]
  exact run_addNode s k name _

/-- A link that is not there is stored over its children if its kind takes so many. -/
theorem run_ensure_link {truth : Option Truth} {k : LinkKind} {cs : List Pattern}
    {ids : List AtomId} (hrun : (ensureList cs).run.run s = (.ok ids, s')) (h : s'.Inv)
    (hcs : s'.existingList cs = some ids) (hnone : s'.oldest (.link k ids) = none) :
    (ensure truth (.link (.link k) cs)).run.run s =
      if k.accepts cs.length then (.ok s'.nextId, s'.inserted (.link k ids) (truth.getD .default)
        (ids.map fun id => .int (Int.ofNat id)))
      else (.error (.outgoingCount (.link k) (.ofNat cs.length)), s') := by
  have hmissing : s'.findLink k ids = none := (findLink_eq_oldest h k ids).trans hnone
  have hstored : (ids.find? fun ref => !s'.contains ref) = none := by
    refine List.find?_eq_none.2 fun ref href => ?_
    simpa using contains_iff.2 (mem_ids_of_existingList hcs ref href)
  unfold ensure
  rw [run_bind, hrun]
  show (get >>= _ : StoreM AtomId).run.run s' = _
  rw [run_get_bind, hmissing]
  show (addLinkWritten k ids _ _).run.run s' = _
  rw [run_addLinkWritten, hstored, length_of_existingList hcs]

theorem isValid_of_none (t : Truth) (h : none = some t) : t.IsValid := nomatch h

theorem inv_of_run_ensure (h : s.Inv) {truth : Option Truth}
    (ht : ∀ t, truth = some t → t.IsValid) {p : Pattern} {r : Except Error AtomId}
    (hrun : (ensure truth p).run.run s = (r, s')) : s'.Inv := by
  have hchanges := changes_ensure truth ht p s
  rw [hrun] at hchanges
  exact hchanges.inv h

theorem inv_of_run_ensureList (h : s.Inv) {cs : List Pattern} {r : Except Error (List AtomId)}
    (hrun : (ensureList cs).run.run s = (r, s')) : s'.Inv := by
  have hchanges := changes_ensureList cs s
  rw [hrun] at hchanges
  exact hchanges.inv h

mutual

/-- A tree that fits is stored. -/
theorem run_ensure_of_fits {s : Store} (h : s.Inv) (truth : Option Truth) {p : Pattern}
    (hp : p.fits = true) :
    ∃ id s', (ensure truth p).run.run s = (.ok id, s') ∧ s'.existing p = some id := by
  cases p with
  | var v => cases hp
  | node k name =>
    cases k with
    | link k => cases hp
    | node k =>
      cases ho : s.oldest (.node k name) with
      | some id => exact ⟨id, s, run_ensure_of_existing h truth ho, ho⟩
      | none =>
        have hname : ¬ name.isEmpty = true := by simpa [fits] using hp
        refine ⟨_, _, (run_ensure_node h truth ho).trans (if_neg hname), ?_⟩
        rw [existing_inserted h (q := .node (.node k) name) rfl ho, if_pos rfl]
  | link k cs =>
    cases k with
    | node k => cases hp
    | link k =>
      obtain ⟨hk, hcs⟩ := Bool.and_eq_true_iff.1 hp
      obtain ⟨ids, u, hrun, hids⟩ := run_ensureList_of_fits h hcs
      have hu : u.Inv := inv_of_run_ensureList h hrun
      cases ho : u.oldest (.link k ids) with
      | some id =>
        refine ⟨id, u, run_ensure_link_of_oldest hrun hu ho, ?_⟩
        rw [existing_link, hids]
        exact ho
      | none =>
        have hform : u.formOf (.link (.link k) cs) = some (.link k ids) :=
          congrArg (Option.map (Form.link k)) hids
        refine ⟨_, _, (run_ensure_link hrun hu hids ho).trans (if_pos hk), ?_⟩
        rw [existing_inserted hu hform ho, if_pos rfl]

theorem run_ensureList_of_fits {s : Store} (h : s.Inv) {cs : List Pattern}
    (hcs : fitsList cs = true) :
    ∃ ids s', (ensureList cs).run.run s = (.ok ids, s') ∧ s'.existingList cs = some ids := by
  cases cs with
  | nil => exact ⟨[], s, rfl, rfl⟩
  | cons c cs =>
    obtain ⟨hc, hcs⟩ := Bool.and_eq_true_iff.1 hcs
    obtain ⟨id, u, hrun, hid⟩ := run_ensure_of_fits h none hc
    obtain ⟨ids, w, hrest, hids⟩ := run_ensureList_of_fits (inv_of_run_ensure h isValid_of_none hrun) hcs
    refine ⟨id :: ids, w, ?_, ?_⟩
    · rw [run_ensureList_cons hrun, hrest]
      rfl
    · have hkeeps : Keeps u w := by
        have := (changes_ensureList cs u).keeps
        rwa [hrest] at this
      exact existingList_cons_eq_some.2 ⟨id, ids, hkeeps.existing hid, hids, rfl⟩

end

/-! ## Trees that do not fit -/

theorem accepts_of_oldest (h : s.Inv) {k : LinkKind} {ids : List AtomId} {id : AtomId}
    (ho : s.oldest (.link k ids) = some id) : k.accepts ids.length = true := by
  obtain ⟨a, ha, _, hform⟩ := mem_of_oldest ho
  have hfits := h.formed.fits a ha
  rwa [hform] at hfits

/-- If the fault is the link itself, all its children are stored. -/
theorem run_ensure_link_of_not_fits (h : s.Inv) (truth : Option Truth) {k : Kind}
    {cs : List Pattern} (hp : (Pattern.link k cs).fits = false) (hcs : fitsList cs = true) :
    ∃ e, (ensure truth (.link k cs)).run.run s = (.error e, ((ensureList cs).run.run s).2) := by
  obtain ⟨ids, u, hrun, hids⟩ := run_ensureList_of_fits h hcs
  have hu : u.Inv := inv_of_run_ensureList h hrun
  rw [hrun]
  cases k with
  | node k =>
    unfold ensure
    rw [run_bind, hrun]
    dsimp only
    split <;> exact ⟨_, rfl⟩
  | link k =>
    have hk : ¬ k.accepts cs.length = true := by simpa [fits, hcs] using hp
    cases ho : u.oldest (.link k ids) with
    | some id => exact absurd (length_of_existingList hids ▸ accepts_of_oldest hu ho) hk
    | none => exact ⟨_, (run_ensure_link hrun hu hids ho).trans (if_neg hk)⟩

mutual

/-- A tree that does not fit fails, and what is complete before the fault is stored. -/
theorem run_ensure_of_not_fits {s : Store} (h : s.Inv) (truth : Option Truth) {p : Pattern}
    (hp : p.fits = false) :
    ∃ e, (ensure truth p).run.run s = (.error e, ((ensureList p.beforeFault).run.run s).2) := by
  cases p with
  | var v => exact ⟨_, rfl⟩
  | node k name =>
    cases k with
    | link k =>
      unfold ensure
      split <;> exact ⟨_, rfl⟩
    | node k =>
      cases ho : s.oldest (.node k name) with
      | some id =>
        have hfits := fits_of_existing h (p := .node (.node k) name) ho
        rw [hfits] at hp
        cases hp
      | none =>
        have hname : name.isEmpty = true := by simpa [fits] using hp
        exact ⟨_, (run_ensure_node h truth ho).trans (if_pos hname)⟩
  | link k cs =>
    show ∃ e, (ensure truth (.link k cs)).run.run s =
      (.error e, ((ensureList (beforeFaultList cs)).run.run s).2)
    cases hcs : fitsList cs with
    | false =>
      obtain ⟨e, hrun⟩ := run_ensureList_of_not_fits h hcs
      refine ⟨e, ?_⟩
      cases k with
      | node k =>
        unfold ensure
        rw [run_bind, hrun]
      | link k =>
        unfold ensure
        rw [run_bind, hrun]
    | true =>
      rw [beforeFaultList_of_fits hcs]
      exact run_ensure_link_of_not_fits h truth hp hcs

theorem run_ensureList_of_not_fits {s : Store} (h : s.Inv) {cs : List Pattern}
    (hcs : fitsList cs = false) :
    ∃ e, (ensureList cs).run.run s =
      (.error e, ((ensureList (beforeFaultList cs)).run.run s).2) := by
  cases cs with
  | nil => cases hcs
  | cons c cs =>
    cases hc : c.fits with
    | false =>
      obtain ⟨e, hrun⟩ := run_ensure_of_not_fits h none hc
      refine ⟨e, ?_⟩
      rw [ensureList, run_bind, hrun, beforeFaultList, hc]
      rfl
    | true =>
      obtain ⟨id, u, hrun, _⟩ := run_ensure_of_fits h none hc
      have hcs : fitsList cs = false := by simpa [fitsList, hc] using hcs
      obtain ⟨e, hrest⟩ := run_ensureList_of_not_fits (inv_of_run_ensure h isValid_of_none hrun) hcs
      refine ⟨e, ?_⟩
      rw [run_ensureList_cons hrun, hrest, beforeFaultList, if_pos hc, run_ensureList_cons hrun]
      rfl

end

/-- A tree is stored exactly if it fits, and then its atom is found. -/
theorem existing_of_run_ensure (h : s.Inv) {truth : Option Truth} {p : Pattern} {id : AtomId}
    (hrun : (ensure truth p).run.run s = (.ok id, s')) :
    p.fits = true ∧ s'.existing p = some id := by
  cases hp : p.fits with
  | false =>
    obtain ⟨e, herror⟩ := run_ensure_of_not_fits h truth hp
    rw [herror] at hrun
    cases hrun
  | true =>
    obtain ⟨id', u, hok, he⟩ := run_ensure_of_fits h truth hp
    rw [hok] at hrun
    cases hrun
    exact ⟨rfl, he⟩

theorem existingList_of_run_ensureList (h : s.Inv) {cs : List Pattern} {ids : List AtomId}
    (hrun : (ensureList cs).run.run s = (.ok ids, s')) :
    fitsList cs = true ∧ s'.existingList cs = some ids := by
  cases hcs : fitsList cs with
  | false =>
    obtain ⟨e, herror⟩ := run_ensureList_of_not_fits h hcs
    rw [herror] at hrun
    cases hrun
  | true =>
    obtain ⟨ids', u, hok, he⟩ := run_ensureList_of_fits h hcs
    rw [hok] at hrun
    cases hrun
    exact ⟨rfl, he⟩

/-! ## Step by step -/

/-- Storing the atom of a tree that had none, with a truth value that belongs to it. -/
inductive Plant (J : Pattern → Truth → Prop) : Store → Store → Prop
  | mk {s : Store} {q : Pattern} {form : Form} {t : Truth} (written : List Value) (hJ : J q t)
    (hq : s.formOf q = some form) (hnew : s.oldest form = none) (hf : form.Fits) :
    Plant J s (s.inserted form t written)

/-- Storing the atoms of any number of trees. -/
abbrev Plants (J : Pattern → Truth → Prop) : Store → Store → Prop := Relation.ReflTransGen (Plant J)

theorem Plants.mono {J J' : Pattern → Truth → Prop} (hJ : ∀ q t, J q t → J' q t)
    (h : Plants J s s') : Plants J' s s' := by
  induction h with
  | refl => exact .refl
  | tail _ hstep ih =>
    obtain ⟨written, hj, hq, hnew, hf⟩ := hstep
    exact ih.tail (.mk written (hJ _ _ hj) hq hnew hf)

/-- Storing a node stores its atom, unless it is there or has no name. -/
theorem plants_ensure_node (h : s.Inv) (truth : Option Truth) (k : NodeKind) (name : String) :
    Plants (Assigned (.node (.node k) name) (truth.getD .default)) s
      ((ensure truth (.node (.node k) name)).run.run s).2 := by
  cases ho : s.oldest (.node k name) with
  | some id =>
    rw [run_ensure_of_existing h truth (p := .node (.node k) name) ho]
  | none =>
    rw [run_ensure_node h truth ho]
    split
    · exact .refl
    · next hname => exact .single (.mk [] (.inl ⟨rfl, rfl⟩) rfl ho (Bool.eq_false_iff.2 hname))

/-- Storing a link whose children are stored by then stores its atom, unless it is there or has
too many or too few of them. -/
theorem plants_ensure_link (h : s.Inv) (truth : Option Truth) {k : LinkKind} {cs : List Pattern}
    {ids : List AtomId} {u : Store} (hrun : (ensureList cs).run.run s = (.ok ids, u)) :
    Plants (Assigned (.link (.link k) cs) (truth.getD .default)) u
      ((ensure truth (.link (.link k) cs)).run.run s).2 := by
  have hu : u.Inv := inv_of_run_ensureList h hrun
  obtain ⟨_, hids⟩ := existingList_of_run_ensureList h hrun
  cases ho : u.oldest (.link k ids) with
  | some id =>
    rw [run_ensure_link_of_oldest hrun hu ho]
  | none =>
    rw [run_ensure_link hrun hu hids ho]
    split
    · next hk =>
      have hform : u.formOf (.link (.link k) cs) = some (.link k ids) :=
        congrArg (Option.map (Form.link k)) hids
      have hfits : (Form.link k ids).Fits := by
        show k.accepts ids.length = true
        rw [length_of_existingList hids, hk]
      exact .single (.mk _ (.inl ⟨rfl, rfl⟩) hform ho hfits)
    · exact .refl

mutual

/-- Whether it succeeds or not, storing a tree stores atoms of the tree, with the given truth
value, and of its parts, with the usual one. -/
theorem plants_ensure {s : Store} (h : s.Inv) (truth : Option Truth) (p : Pattern) :
    Plants (Assigned p (truth.getD .default)) s ((ensure truth p).run.run s).2 := by
  cases p with
  | var v => exact .refl
  | node k name =>
    cases k with
    | link k =>
      unfold ensure
      split <;> exact .refl
    | node k => exact plants_ensure_node h truth k name
  | link k cs =>
    have hlist : Plants (Assigned (.link k cs) (truth.getD .default)) s
        ((ensureList cs).run.run s).2 := by
      refine (plants_ensureList h cs).mono fun q t hq => .inr ⟨?_, hq.2⟩
      obtain ⟨c, hc, rfl | hpart⟩ := hq.1
      · exact .child _ hc
      · exact .deeper _ hc hpart
    cases hrun : (ensureList cs).run.run s with
    | mk result u =>
      rw [hrun] at hlist
      cases result with
      | error e =>
        -- What its children left is all that a link leaves that is not reached.
        cases k <;> rw [ensure, run_bind, hrun] <;> exact hlist
      | ok ids =>
        cases k with
        | node k =>
          rw [ensure, run_bind, hrun]
          dsimp only
          split <;> exact hlist
        | link k => exact hlist.trans (plants_ensure_link h truth hrun)

theorem plants_ensureList {s : Store} (h : s.Inv) (cs : List Pattern) :
    Plants (fun q t => (∃ c ∈ cs, q = c ∨ Part q c) ∧ t = .default) s
      ((ensureList cs).run.run s).2 := by
  cases cs with
  | nil => exact .refl
  | cons c cs =>
    have hfirst : Plants (fun q t => (∃ d ∈ c :: cs, q = d ∨ Part q d) ∧ t = .default) s
        ((ensure none c).run.run s).2 := by
      refine (plants_ensure h none c).mono fun q t hq => ?_
      rcases hq with ⟨rfl, rfl⟩ | ⟨hpart, rfl⟩
      · exact ⟨⟨q, List.mem_cons_self .., .inl rfl⟩, rfl⟩
      · exact ⟨⟨c, List.mem_cons_self .., .inr hpart⟩, rfl⟩
    cases hrun : (ensure none c).run.run s with
    | mk result u =>
      rw [hrun] at hfirst
      cases result with
      | error e =>
        rw [ensureList, run_bind, hrun]
        exact hfirst
      | ok id =>
        rw [run_ensureList_cons hrun]
        refine hfirst.trans ?_
        refine (plants_ensureList (inv_of_run_ensure h isValid_of_none hrun) cs).mono ?_
        rintro q t ⟨⟨d, hd, hq⟩, rfl⟩
        exact ⟨⟨d, List.mem_cons_of_mem _ hd, hq⟩, rfl⟩

end

end Store

end Credence
