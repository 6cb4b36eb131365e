import Credence.Proofs.Store.Overlay
/-!
# Stores with the same atoms

Two stores are twins if they have the same atoms and give out the same identifier next.
Of the truth values only a part may be asked to be the same: all of them for a copy of a
store, their strengths for stores that differ in confidences. No lookup can tell twins
apart, as every index answers by the atoms, so storing the parts of a tree in both has
the same outcome and leaves twins again.
-/

namespace Credence

/-- An atom with a part of its truth value. -/
def Atom.shown {α : Type} (part : Truth → α) (a : Atom) : (AtomId × Form) × List Value × α :=
  ((a.id, a.form), a.written, part a.truth)

namespace Store

open Pattern

/-- Whether two stores have the same atoms, as to a part of their truth values, and the same
identifier to give out next. -/
structure Twin {α : Type} (part : Truth → α) (s s' : Store) : Prop where
  atoms : s'.atoms.map (Atom.shown part) = s.atoms.map (Atom.shown part)
  nextId : s'.nextId = s.nextId

variable {α : Type} {part : Truth → α} {s s' : Store}

theorem Twin.symm (h : Twin part s s') : Twin part s' s := ⟨h.atoms.symm, h.nextId.symm⟩

theorem Twin.trans {s'' : Store} (h : Twin part s s') (h' : Twin part s' s'') : Twin part s s'' :=
  ⟨h'.atoms.trans h.atoms, h'.nextId.trans h.nextId⟩

/-- Twins as to whole truth values have the same atoms. -/
theorem Twin.atoms_eq (h : Twin id s s') : s'.atoms = s.atoms := by
  refine List.map_injective_iff.2 (fun a b hab => ?_) h.atoms
  cases a
  cases b
  cases hab
  rfl

theorem twin_of_atoms_eq (h : s'.atoms = s.atoms) (hn : s'.nextId = s.nextId) : Twin part s s' :=
  ⟨by rw [h], hn⟩

/-! ## Lookups -/

theorem Twin.get? (h : Twin part s s') (id : AtomId) :
    (s'.get? id).map (Atom.shown part) = (s.get? id).map (Atom.shown part) := by
  have hfind := congrArg (List.find? fun e => decide (e.1.1 = id)) h.atoms
  rw [List.find?_map, List.find?_map] at hfind
  exact hfind

/-- The form of an atom is the same in twins. -/
theorem Twin.form (h : Twin part s s') (id : AtomId) :
    (s'.get? id).map Atom.form = (s.get? id).map Atom.form := by
  have hform := congrArg (Option.map fun e => e.1.2) (h.get? id)
  rwa [Option.map_map, Option.map_map] at hform

theorem Twin.forms (h : Twin part s s') :
    s'.atoms.map (fun a => (a.id, a.form)) = s.atoms.map fun a => (a.id, a.form) := by
  have hforms := congrArg (List.map Prod.fst) h.atoms
  rwa [List.map_map, List.map_map] at hforms

theorem Twin.ids (h : Twin part s s') : s'.ids = s.ids := by
  have hids := congrArg (List.map Prod.fst) h.forms
  rwa [List.map_map, List.map_map] at hids

theorem Twin.contains (h : Twin part s s') (id : AtomId) : s'.contains id = s.contains id := by
  rw [Bool.eq_iff_iff, contains_iff, contains_iff, h.ids]

/-- What a test of forms finds is the same in twins. -/
theorem Twin.idsWhere (h : Twin part s s') (test : Form → Bool) :
    s'.idsWhere (fun a => test a.form) = s.idsWhere fun a => test a.form := by
  have hfilter := congrArg (fun es => (es.filter fun e => test e.2).map Prod.fst) h.forms
  rw [List.filter_map, List.filter_map, List.map_map, List.map_map] at hfilter
  exact hfilter

theorem Twin.oldest (h : Twin part s s') (form : Form) : s'.oldest form = s.oldest form := by
  have hwhere := congrArg List.head? (h.idsWhere fun f => decide (f = form))
  unfold Store.idsWhere at hwhere
  rwa [List.head?_map, List.head?_map, List.head?_filter, List.head?_filter] at hwhere

theorem Twin.existing (h : Twin part s s') (q : Pattern) : s'.existing q = s.existing q := by
  have hto : Keeps s s' := fun f id ho => (h.oldest f).trans ho
  have hfrom : Keeps s' s := fun f id ho => (h.oldest f).symm.trans ho
  exact Option.ext fun id => ⟨fun he => hfrom.existing he, fun he => hto.existing he⟩

/-! ## Copies -/

theorem Twin.rating (h : Twin id s s') (q : Pattern) : s'.rating q = s.rating q := by
  unfold Store.rating Store.get?
  rw [h.existing, h.atoms_eq]

theorem Twin.plain (h : Twin id s s') (hp : s.Plain) : s'.Plain := by
  unfold Plain
  rw [h.atoms_eq]
  exact hp

/-- A copy of a whole store is its twin. -/
theorem twin_snapshot (h : s.Inv) : Twin part s s.snapshot := by
  refine twin_of_atoms_eq ?_ rfl
  show (s.subset s.ids).atoms = s.atoms
  rw [atoms_subset]
  have hc := closed_closure s.ids h.formed.ascending fun a ha ref href =>
    (h.formed.older a ha ref href).1
  have hnodup : s.atoms.Nodup := .of_map Atom.id (h.formed.ascending.imp Nat.ne_of_lt)
  have hall : s.atoms ⊆ (closure s.ids s.atoms).1 := fun a ha =>
    hc.kept a ha (hc.wanted a.id (mem_ids.2 ⟨a, ha, rfl⟩))
  exact hc.sublist.eq_of_length_le (hnodup.subperm hall).length_le

/-- A twin stands over the store as over a copy. -/
theorem Twin.overlay (h : Twin id s s') (hs' : s'.Inv) (hr : s.Readable) : Overlay s s' where
  inv := hs'
  readable a ha := hr a (h.atoms_eq ▸ ha)
  keeps f _ ho := (h.oldest f).trans ho
  next := Nat.le_of_eq h.nextId.symm
  old a ha := ⟨a, h.atoms_eq ▸ ha, rfl, rfl⟩
  fresh _ hid := .inl (h.ids ▸ hid)
  owned _ ha := .inr (h.atoms_eq ▸ ha)

/-! ## Operations -/

theorem Twin.inserted (h : Twin part s s') (form : Form) (t : Truth) (written : List Value) :
    Twin part (s.inserted form t written) (s'.inserted form t written) := by
  refine ⟨?_, ?_⟩
  · rw [atoms_inserted, atoms_inserted, List.map_append, List.map_append, h.atoms, h.nextId]
  · show s'.nextId + 1 = s.nextId + 1
    rw [h.nextId]

theorem Twin.retruth (h : Twin part s s') (id : AtomId) (t : Truth) :
    Twin part (s.retruth id t) (s'.retruth id t) := by
  refine ⟨?_, h.nextId⟩
  have hset : ∀ a : Atom, (if a.id = id then { a with truth := t } else a).shown part =
      (fun e => if e.1.1 = id then (e.1, e.2.1, part t) else e) (a.shown part) := by
    intro a
    dsimp only [Atom.shown]
    split <;> rfl
  rw [atoms_retruth, atoms_retruth, List.map_map, List.map_map]
  have hmap := congrArg
    (List.map fun e => if e.1.1 = id then (e.1, e.2.1, part t) else e) h.atoms
  rw [List.map_map, List.map_map] at hmap
  refine Eq.trans (List.map_congr_left fun a _ => hset a) (hmap.trans ?_)
  exact (List.map_congr_left fun a _ => hset a).symm

/-- An atom that gets another confidence leaves a twin as to strengths. -/
theorem twin_retruth (h : s.Inv) {id : AtomId} {a : Atom} {t : Truth} (ha : s.get? id = some a)
    (ht : t.strength = a.truth.strength) : Twin Truth.strength s (s.retruth id t) := by
  refine ⟨?_, rfl⟩
  rw [atoms_retruth, List.map_map]
  refine List.map_congr_left fun b hb => ?_
  show (if b.id = id then { b with truth := t } else b).shown Truth.strength = _
  split
  · next hid =>
    subst hid
    rw [get?_eq_some h hb] at ha
    cases ha
    exact congrArg (fun x => ((a.id, a.form), a.written, x)) ht
  · rfl

/-- What relates twins and still does after the same atom was stored or got the same truth value in
both. -/
structure Lasting (part : Truth → α) (R : Store → Store → Prop) : Prop where
  twin : ∀ {s s' : Store}, R s s' → Twin part s s'
  inserted : ∀ {s s' : Store}, R s s' → ∀ (form : Form) (t : Truth) (written : List Value),
    R (s.inserted form t written) (s'.inserted form t written)
  retruth : ∀ {s s' : Store}, R s s' → ∀ (id : AtomId) (t : Truth),
    R (s.retruth id t) (s'.retruth id t)

theorem lasting_twin (part : Truth → α) : Lasting part (Twin part) where
  twin h := h
  inserted := Twin.inserted
  retruth := Twin.retruth

variable {R : Store → Store → Prop}

/-- Whether an operation has the same outcome over two stores and leaves related ones. -/
structure Alongside {β : Type} (R : Store → Store → Prop) (x : StoreM β) (s s' : Store) :
    Prop where
  outcome : (x.run.run s').1 = (x.run.run s).1
  related : R (x.run.run s).2 (x.run.run s').2

section

variable {β γ : Type} {x : StoreM β} {f : β → StoreM γ}

/-- An operation that succeeds over one store does over the other. -/
theorem Alongside.run {u : Store} {a : β} (h : Alongside R x s s')
    (hrun : x.run.run s = (.ok a, u)) : ∃ u', x.run.run s' = (.ok a, u') ∧ R u u' := by
  obtain ⟨hout, hrel⟩ := h
  rw [hrun] at hout hrel
  exact ⟨(x.run.run s').2, Prod.ext hout rfl, hrel⟩

/-- An operation that leaves both stores as they are. -/
theorem Alongside.same {r : Except Error β} (h : R s s') (hrun : x.run.run s = (r, s))
    (hrun' : x.run.run s' = (r, s')) : Alongside R x s s' := by
  constructor <;> rw [hrun, hrun']
  exact h

theorem Alongside.bind (hx : Alongside R x s s')
    (hf : ∀ a u u', x.run.run s = (.ok a, u) → x.run.run s' = (.ok a, u') → R u u' →
      Alongside R (f a) u u') : Alongside R (x >>= f) s s' := by
  cases hr : x.run.run s with
  | mk r u =>
    have hout := hx.outcome
    have hrel := hx.related
    rw [hr] at hout hrel
    have hr' : x.run.run s' = (r, (x.run.run s').2) := Prod.ext hout rfl
    have hrun := run_bind s x f
    have hrun' := run_bind s' x f
    rw [hr] at hrun
    rw [hr'] at hrun'
    cases r with
    | error e => constructor <;> rw [hrun, hrun']; exact hrel
    | ok a =>
      obtain ⟨hout, hrel⟩ := hf a u _ hr hr' hrel
      constructor <;> rw [hrun, hrun'] <;> assumption

theorem alongside_pure (h : R s s') (a : β) : Alongside R (pure a) s s' :=
  .same h rfl rfl

theorem alongside_throw (h : R s s') (e : Error) :
    Alongside R (throw e : StoreM β) s s' :=
  .same h rfl rfl

end

/-- An operation that looks at the store and goes on in the same way over both. -/
theorem alongside_get {β : Type} {f : Store → StoreM β} (hf : (f s').run.run s' = (f s).run.run s')
    (h : Alongside R (f s) s s') : Alongside R (get >>= f) s s' := by
  constructor <;> rw [run_get_bind, run_get_bind, hf]
  · exact h.outcome
  · exact h.related

theorem Lasting.addNode (hR : Lasting part R) (h : R s s') (k : NodeKind) (name : String)
    (t : Truth) : Alongside R (Store.addNode k name t) s s' := by
  have hrun := run_addNode s k name t
  have hrun' := run_addNode s' k name t
  split at hrun
  · rw [if_pos ‹_›] at hrun'
    exact .same h hrun hrun'
  · rw [if_neg ‹_›] at hrun'
    constructor <;> rw [hrun, hrun']
    · rw [(hR.twin h).nextId]
    · exact hR.inserted h _ _ _

theorem Lasting.addLinkWritten (hR : Lasting part R) (h : R s s') (k : LinkKind)
    (out : List AtomId) (written : List Value) (t : Truth) :
    Alongside R (Store.addLinkWritten k out written t) s s' := by
  have hrun := run_addLinkWritten s k out written t
  have hrun' := run_addLinkWritten s' k out written t
  have hcontains : (fun ref => !s'.contains ref) = fun ref => !s.contains ref :=
    funext fun ref => by rw [(hR.twin h).contains]
  rw [hcontains] at hrun'
  split at hrun
  · rw [if_pos ‹_›] at hrun'
    cases hfind : out.find? fun ref => !s.contains ref with
    | some ref =>
      rw [hfind] at hrun hrun'
      exact .same h hrun hrun'
    | none =>
      rw [hfind] at hrun hrun'
      constructor <;> rw [hrun, hrun']
      · rw [(hR.twin h).nextId]
      · exact hR.inserted h _ _ _
  · rw [if_neg ‹_›] at hrun'
    exact .same h hrun hrun'

mutual

theorem Lasting.ensure {s s' : Store} (hR : Lasting part R) (hs : s.Inv) (hs' : s'.Inv)
    (h : R s s') (truth : Option Truth) (p : Pattern) :
    Alongside R (Store.ensure truth p) s s' := by
  cases p with
  | var v =>
    unfold Store.ensure
    exact alongside_throw h _
  | node k name =>
    cases k with
    | node k =>
      have hfind : s'.findNode k name = s.findNode k name := by
        rw [findNode_eq_oldest hs', findNode_eq_oldest hs, (hR.twin h).oldest]
      unfold Store.ensure
      refine alongside_get (by rw [hfind]) ?_
      split
      · exact alongside_pure h _
      · exact hR.addNode h k name _
    | link k =>
      unfold Store.ensure
      split <;> exact alongside_throw h _
  | link k cs =>
    cases k with
    | node k =>
      unfold Store.ensure
      refine (Lasting.ensureList hR hs hs' h cs).bind fun ids u u' _ _ hu => ?_
      split <;> exact alongside_throw hu _
    | link k =>
      unfold Store.ensure
      refine (Lasting.ensureList hR hs hs' h cs).bind fun ids u u' hrun hrun' hu => ?_
      have hfind : u'.findLink k ids = u.findLink k ids := by
        rw [findLink_eq_oldest (inv_of_run_ensureList hs' hrun'),
          findLink_eq_oldest (inv_of_run_ensureList hs hrun), (hR.twin hu).oldest]
      refine alongside_get (by rw [hfind]) ?_
      split
      · exact alongside_pure hu _
      · exact hR.addLinkWritten hu k ids _ _

theorem Lasting.ensureList {s s' : Store} (hR : Lasting part R) (hs : s.Inv) (hs' : s'.Inv)
    (h : R s s') (cs : List Pattern) : Alongside R (Store.ensureList cs) s s' := by
  cases cs with
  | nil =>
    unfold Store.ensureList
    exact alongside_pure h []
  | cons c cs =>
    unfold Store.ensureList
    refine (Lasting.ensure hR hs hs' h none c).bind fun id u u' hrun hrun' hu => ?_
    exact (Lasting.ensureList hR (inv_of_run_ensure hs isValid_of_none hrun)
      (inv_of_run_ensure hs' isValid_of_none hrun') hu cs).bind
        fun ids v v' _ _ hv => alongside_pure hv _

end

/-- The root gets the truth value in both stores or in neither, if it has it already in both or in
neither. -/
theorem Lasting.settle (hR : Lasting part R) (h : R s s') {root : AtomId} {t : Truth}
    (hsame : ∀ a a', s.get? root = some a → s'.get? root = some a' →
      (a'.truth == t) = (a.truth == t)) : Alongside R (Store.settle root t) s s' := by
  have hget := (hR.twin h).get? root
  constructor <;> rw [run_settle, run_settle]
  dsimp only
  cases hs : s.get? root with
  | none =>
    rw [hs] at hget
    rw [Option.map_eq_none_iff.1 hget]
    exact h
  | some a =>
    rw [hs] at hget
    obtain ⟨a', hs', _⟩ := Option.map_eq_some_iff.1 hget
    rw [hs']
    dsimp only
    rw [hsame a a' hs hs']
    split
    · exact h
    · exact hR.retruth h root t

/-- Asserting a tree in related stores has one outcome and leaves related ones, if its root has the
truth value already in both or in neither. -/
theorem Lasting.assert (hR : Lasting part R) (hs : s.Inv) (hs' : s'.Inv) (h : R s s') {p : Pattern}
    {t : Truth} (hsame : ∀ root u u' a a', (Store.ensure (some t) p).run.run s = (.ok root, u) →
      (Store.ensure (some t) p).run.run s' = (.ok root, u') → R u u' → u.get? root = some a →
      u'.get? root = some a' → (a'.truth == t) = (a.truth == t)) :
    Alongside R (Store.assert p (some t)) s s' := by
  unfold Store.assert
  cases p.isGround with
  | false => exact .same h rfl rfl
  | true =>
    refine (hR.ensure hs hs' h (some t) p).bind fun root u u' hrun hrun' hu => ?_
    refine (hR.settle hu fun a a' ha ha' => ?_).bind fun _ v v' _ _ hv => alongside_pure hv root
    exact hsame root u u' a a' hrun hrun' hu ha ha'

/-- Nothing more is asked of twins as to whole truth values. -/
theorem Twin.assert (hs : s.Inv) (hs' : s'.Inv) (h : Twin id s s') (p : Pattern) (t : Truth) :
    Alongside (Twin id) (Store.assert p (some t)) s s' := by
  refine (lasting_twin id).assert hs hs' h fun root u u' a a' _ _ hu ha ha' => ?_
  have hget : u'.get? root = u.get? root := by
    unfold Store.get?
    rw [hu.atoms_eq]
  rw [hget, ha] at ha'
  cases ha'
  rfl

end Store

end Credence
