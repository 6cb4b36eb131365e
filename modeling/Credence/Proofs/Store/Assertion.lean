import Credence.Proofs.Pattern.Ink
import Credence.Proofs.Store.Rating
/-!
# What an assertion leaves behind

A ground tree that was read from a text is stored if its nodes have names. Its root
reads back as the tree; the other atoms that were there stay as they are; and the new
atoms are those of the parts that had none, one for each, under the next identifiers.
Asserting the tree once more finds the root and changes nothing.
-/

namespace Credence

/-! ## Trees that are read fit -/

namespace Pattern

/-- Whether all nodes of a pattern have names. -/
def Named (p : Pattern) : Prop := ∀ k name, .node k name = p ∨ Part (.node k name) p → name ≠ ""

theorem Named.child {k : Kind} {cs : List Pattern} (h : (link k cs).Named) {c : Pattern}
    (hc : c ∈ cs) : c.Named := by
  rintro l name (rfl | hpart)
  · exact h l name (.inr (.child k hc))
  · exact h l name (.inr (.deeper k hc hpart))

mutual

/-- A ground tree that was read fits if its nodes have names. -/
theorem fits_of_derives {ls : List Lexeme} {p : Pattern} (h : Derives ls p)
    (hground : ∀ v, v ∉ p.occurrences) (hnamed : p.Named) : p.fits = true := by
  cases h with
  | @symbol word =>
    exact absurd (List.mem_singleton_self _) (hground (.ofList word))
  | @node _ k _ _ name =>
    have hname := hnamed (.node k) (.ofList name) (.inl rfl)
    show (!(String.ofList name).isEmpty) = true
    rw [String.isEmpty_eq_false_iff.2 hname]
    rfl
  | @variableNode _ _ name =>
    exact absurd (List.mem_singleton_self _) (hground (.ofList (marked name)))
  | link _ hcs hcount =>
    refine Bool.and_eq_true_iff.2 ⟨hcount, ?_⟩
    exact fitsList_of_derivesEach hcs hground fun c hc => hnamed.child hc

theorem fitsList_of_derivesEach {ls : List Lexeme} {cs : List Pattern} (h : DerivesEach ls cs)
    (hground : ∀ v, v ∉ occurrencesList cs) (hnamed : ∀ c ∈ cs, c.Named) :
    fitsList cs = true := by
  cases h with
  | nil => rfl
  | cons hc hcs =>
    obtain ⟨hname, hnames⟩ := List.forall_mem_cons.1 hnamed
    refine Bool.and_eq_true_iff.2 ⟨?_, ?_⟩
    · exact fits_of_derives hc (fun v hv => hground v (List.mem_append_left _ hv)) hname
    · exact fitsList_of_derivesEach hcs (fun v hv => hground v (List.mem_append_right _ hv)) hnames

end

theorem fits_of_part {p q : Pattern} (h : p.fits = true) (hq : Part q p) : q.fits = true := by
  refine hq.inherit (P := fun q => q.fits = true) (fun k cs hfits c hc => ?_) h
  cases k with
  | node k => cases hfits
  | link k => exact fits_of_mem (Bool.and_eq_true_iff.1 hfits).2 hc

/-- Only named nodes fit. -/
theorem named_of_fits {p : Pattern} (h : p.fits = true) : p.Named := by
  have hname : ∀ k name, (node k name).fits = true → name ≠ "" := by
    rintro k name hfits rfl
    cases k <;> cases hfits
  rintro k name (rfl | hpart)
  · exact hname k name h
  · exact hname k name (fits_of_part h hpart)

end Pattern

namespace Store

open Pattern

variable {s s' u : Store} {p : Pattern} {t : Option Truth} {root : AtomId} {old new : List Atom}
  {qs : List Pattern}

/-! ## Reading back -/

/-- The atom that asserting a tree finds reads back as the tree. -/
theorem toPattern_of_existing (h : s.Inv) (hp : p.Grammatical) {id : AtomId}
    (he : s.existing p = some id) : s.toPattern id = .ok p := by
  induction hp generalizing id with
  | var v => cases he
  | @node k hk name =>
    obtain ⟨a, ha, rfl, hform⟩ := mem_of_oldest he
    rw [toPattern_node h ha hform]
    unfold patternOfNode
    split
    · exact absurd rfl hk
    · rfl
  | @link k cs _ ih =>
    rw [existing_link] at he
    obtain ⟨ids, hids, ho⟩ := Option.bind_eq_some_iff.1 he
    obtain ⟨a, ha, rfl, hform⟩ := mem_of_oldest ho
    have hall : List.Forall₂ (fun c id => s.toPattern id = .ok c) cs ids :=
      ((List.forall₂_and_left (p := fun c => ∀ id, s.existing c = some id → s.toPattern id = .ok c)
        cs ids).2 ⟨fun c hc id => ih c hc, existingList_eq_some_iff.1 hids⟩).imp
          fun c id hc => hc.1 id hc.2
    have hread : ids.mapM s.toPattern = .ok cs := mapM_eq_ok_iff.2 hall.flip
    rw [toPattern_link h ha hform, hread]
    rfl

/-! ## The new atoms -/

/-- Atoms that were stored one after another, each for a tree that had none. -/
structure Row (J : Pattern → Truth → Prop) (s u : Store) (new : List Atom) (qs : List Pattern) :
    Prop where
  atoms : u.atoms = s.atoms ++ new
  ids : new.map Atom.id = List.range' s.nextId new.length
  nextId : u.nextId = s.nextId + new.length
  trees : List.Forall₂ (fun a q => u.existing q = some a.id ∧ J q a.truth) new qs
  distinct : qs.Nodup
  absent : ∀ q ∈ qs, s.existing q = none
  found : ∀ q, u.existing q ≠ none ↔ s.existing q ≠ none ∨ q ∈ qs

variable {J : Pattern → Truth → Prop}

/-- One more atom for a tree that had none. -/
theorem Row.plant (h : Row J s u new qs) (hu : u.Inv) (hstep : Plant J u s') :
    ∃ a q, Row J s s' (new ++ [a]) (qs ++ [q]) := by
  cases hstep with
  | @mk q form t written hj hform hnew _ =>
    have hexisting := existing_inserted hu hform hnew t written
    have hnone : u.existing q = none := (existing_eq_oldest hform).trans hnew
    have hkept : ∀ (a : Atom) r, u.existing r = some a.id ∧ J r a.truth →
        (u.inserted form t written).existing r = some a.id ∧ J r a.truth :=
      fun a r hr => ⟨keeps_inserted.existing hr.1, hr.2⟩
    have hfresh : q ∉ qs := fun hq => by
      obtain ⟨a, _, ha, _⟩ := exists_of_mem_forall₂ h.trees hq
      cases hnone.symm.trans ha
    refine ⟨⟨u.nextId, form, t, written⟩, q, ?_, ?_, ?_, ?_, ?_, ?_, fun r => ?_⟩
    · rw [atoms_inserted, h.atoms, List.append_assoc]
    · rw [List.map_append, h.ids, List.length_append, List.length_singleton, h.nextId]
      exact List.range'_1_concat.symm
    · rw [List.length_append, ← Nat.add_assoc, ← h.nextId]
      rfl
    · refine List.rel_append (h.trees.imp hkept) (.cons ⟨?_, hj⟩ .nil)
      rw [hexisting, if_pos rfl]
    · exact List.nodup_append.2 ⟨h.distinct, List.nodup_singleton q,
        fun r hr d hd heq => hfresh (List.mem_singleton.1 hd ▸ heq ▸ hr)⟩
    · refine List.forall_mem_append.2 ⟨h.absent, List.forall_mem_singleton.2 ?_⟩
      exact not_not.1 fun hsome => (h.found q).2 (.inl hsome) hnone
    · rw [hexisting, List.mem_append, List.mem_singleton, ← or_assoc, ← h.found r]
      split
      · next heq => exact ⟨fun _ => .inr heq, fun _ => Option.some_ne_none _⟩
      · next hne => exact ⟨.inl, fun hor => hor.resolve_right hne⟩

theorem exists_row (hJ : ∀ q t, J q t → t.IsValid) (h : s.Inv) (hs : Plants J s u) :
    ∃ new qs, Row J s u new qs := by
  induction hs with
  | refl =>
    exact ⟨[], [], (List.append_nil _).symm, rfl, rfl, .nil, .nil, nofun,
      fun _ => (or_iff_left List.not_mem_nil).symm⟩
  | tail hpre hstep ih =>
    obtain ⟨new, qs, hrow⟩ := ih
    obtain ⟨a, q, hrow⟩ := hrow.plant (Plants.inv hJ hpre h) hstep
    exact ⟨_, _, hrow⟩

/-! ## The truth value of the root -/

/-- Whether a store differs from another by the truth value of an atom at most, and not at all if
none was given. All atoms are passed through a function. -/
structure Settled (t : Option Truth) (root : AtomId) (u s' : Store) (f : Atom → Atom) : Prop where
  inv : s'.Inv
  atoms : s'.atoms = u.atoms.map f
  nextId : s'.nextId = u.nextId
  existing : ∀ q, s'.existing q = u.existing q
  truth : ∀ a, f a = { a with truth := (f a).truth } ∧ (a.id ≠ root ∨ t = none → f a = a)

theorem settled_refl (h : u.Inv) (t : Option Truth) (root : AtomId) : Settled t root u u id :=
  ⟨h, (List.map_id _).symm, rfl, fun _ => rfl, fun _ => ⟨rfl, fun _ => rfl⟩⟩

theorem settled_retruth (h : u.Inv) {v : Truth} (hv : v.IsValid) (root : AtomId) :
    Settled (some v) root u (u.retruth root v)
      fun a => if a.id = root then { a with truth := v } else a := by
  refine ⟨h.retruth root hv, rfl, rfl, existing_retruth u root v, fun a => ⟨?_, fun hne => ?_⟩⟩
  · split <;> rfl
  · exact if_neg (hne.resolve_right (Option.some_ne_none v))

/-- What asserting a tree does to the atoms: the old ones stay but for the truth value of the root,
and the new ones belong to those of the tree and its parts that had no atom. -/
structure Planted (s : Store) (p : Pattern) (t : Option Truth) (root : AtomId) (s' : Store)
    (old new : List Atom) (qs : List Pattern) : Prop where
  atoms : s'.atoms = old ++ new
  old : List.Forall₂ (fun a b => b = { a with truth := b.truth } ∧
    (a.id ≠ root ∨ t = none → b = a)) s.atoms old
  ids : new.map Atom.id = List.range' s.nextId new.length
  nextId : s'.nextId = s.nextId + new.length
  trees : List.Forall₂ (fun a q => s'.toPattern a.id = .ok q) new qs
  distinct : qs.Nodup
  missing : ∀ q, q ∈ qs ↔ (q = p ∨ Part q p) ∧ s.existing q = none
  usual : ∀ a ∈ new, a.id ≠ root ∨ t = none → a.truth = .default

/-- The trees that got an atom are those that had none. -/
theorem Row.mem_iff {v : Truth} (h : Row (Assigned p v) s u new qs)
    (hroot : u.existing p = some root) (q : Pattern) :
    q ∈ qs ↔ (q = p ∨ Part q p) ∧ s.existing q = none := by
  constructor
  · intro hq
    obtain ⟨a, _, _, hj⟩ := exists_of_mem_forall₂ h.trees hq
    exact ⟨hj.imp And.left And.left, h.absent q hq⟩
  · rintro ⟨hq, hnone⟩
    have hsome : u.existing p ≠ none := hroot ▸ Option.some_ne_none root
    have hstored : u.existing q ≠ none := by
      rcases hq with rfl | hq
      · exact hsome
      · exact existing_of_part hq hsome
    exact ((h.found q).1 hstored).resolve_left (not_not.2 hnone)

/-- All new atoms have the usual truth value, unless one is the root and another was given. -/
theorem Row.usual (h : Row (Assigned p (t.getD .default)) s u new qs)
    (hroot : u.existing p = some root) {a : Atom} (ha : a ∈ new) (hne : a.id ≠ root ∨ t = none) :
    a.truth = .default := by
  obtain ⟨q, _, hq, hj⟩ := exists_of_mem_forall₂ h.trees.flip ha
  rcases hj with ⟨rfl, htruth⟩ | ⟨_, htruth⟩
  · have hnone : t = none :=
      hne.resolve_left fun hne => hne (Option.some.inj (hq.symm.trans hroot))
    rw [htruth, hnone]
    rfl
  · exact htruth

theorem Row.planted (h : Row (Assigned p (t.getD .default)) s u new qs) (hp : p.Grammatical)
    (hroot : u.existing p = some root) {f : Atom → Atom} (hs : Settled t root u s' f) :
    Planted s p t root s' (s.atoms.map f) (new.map f) qs := by
  have hid : ∀ a, (f a).id = a.id := fun a => by rw [(hs.truth a).1]
  refine ⟨?_, ?_, ?_, ?_, ?_, h.distinct, h.mem_iff hroot, ?_⟩
  · rw [hs.atoms, h.atoms, List.map_append]
  · exact List.forall₂_map_right_iff.2 (List.forall₂_same.2 fun a _ => hs.truth a)
  · rw [List.map_map, List.length_map, ← h.ids]
    exact List.map_congr_left fun a _ => hid a
  · rw [hs.nextId, h.nextId, List.length_map]
  · refine List.forall₂_map_left_iff.2 (h.trees.imp fun a q hq => ?_)
    have hq' : q.Grammatical := by
      rcases hq.2 with ⟨rfl, _⟩ | ⟨hpart, _⟩
      · exact hp
      · exact hp.part hpart
    rw [hid]
    exact toPattern_of_existing hs.inv hq' ((hs.existing q).trans hq.1)
  · intro b hb hne
    obtain ⟨a, ha, rfl⟩ := List.mem_map.1 hb
    rw [hid] at hne
    rw [(hs.truth a).2 hne]
    exact h.usual hroot ha hne

/-! ## Asserting -/

/-- Whether a tree is there and its atom has the truth value that was given. -/
structure Stands (s : Store) (p : Pattern) (t : Option Truth) (root : AtomId) : Prop where
  inv : s.Inv
  existing : s.existing p = some root
  truth : ∀ v, t = some v → ∃ a, s.get? root = some a ∧ (a.truth == v) = true

theorem beq_self_of_isValid {v : Truth} (hv : v.IsValid) : (v == v) = true :=
  Bool.and_eq_true_iff.2 ⟨(Level.refl hv.strength).beq, (Level.refl hv.confidence).beq⟩

/-- What stands is asserted again without any change. -/
theorem run_assert_of_stands (h : Stands s p t root) (hp : p.isGround = true) :
    (assert p t).run.run s = (.ok root, s) := by
  rw [assert_of_isGround hp, run_bind, run_ensure_of_existing h.inv t h.existing]
  cases t with
  | none => rfl
  | some v =>
    obtain ⟨a, ha, heq⟩ := h.truth v rfl
    show (settle root v >>= fun _ => pure root).run.run s = _
    rw [run_bind, run_settle, ha]
    dsimp only
    rw [if_pos heq]
    rfl

/-- A tree that fits stands after it was asserted, and its root and what was missing is all that
changed. -/
theorem assert_stands (h : s.Inv) (hp : p.Grammatical) (hground : p.isGround = true)
    (hfits : p.fits = true) (ht : ∀ v, t = some v → v.IsValid) :
    ∃ root s', (assert p t).run.run s = (.ok root, s') ∧ Stands s' p t root ∧
      ∃ old new qs, Planted s p t root s' old new qs := by
  obtain ⟨root, u, hensure, hroot⟩ := run_ensure_of_fits h t hfits
  have hplants := plants_ensure h t p
  rw [hensure] at hplants
  have hJ : ∀ q v, Assigned p (t.getD .default) q v → v.IsValid :=
    fun _ _ => isValid_of_assigned (isValid_getD ht)
  have hu := hplants.inv hJ h
  obtain ⟨new, qs, hrow⟩ := exists_row hJ h hplants
  rw [assert_of_isGround hground, run_bind, hensure]
  have hkept := hrow.planted hp hroot (settled_refl hu t root)
  cases t with
  | none =>
    exact ⟨root, u, rfl, ⟨hu, hroot, fun v hv => absurd hv.symm (Option.some_ne_none v)⟩, _, _, _,
      hkept⟩
  | some v =>
    obtain ⟨a, ha⟩ := Option.isSome_iff_exists.1 (contains_iff.2 (mem_ids_of_existing hroot))
    show ∃ r s', (settle root v >>= fun _ => pure root).run.run u = (.ok r, s') ∧ _
    rw [run_bind, run_settle, ha]
    refine ⟨root, _, rfl, ?_⟩
    dsimp only
    split
    · next heq =>
      exact ⟨⟨hu, hroot, fun w hw => ⟨a, ha, Option.some.inj hw ▸ heq⟩⟩, _, _, _, hkept⟩
    · have hv := ht v rfl
      refine ⟨⟨hu.retruth root hv, (existing_retruth ..).trans hroot, fun w hw => ?_⟩, _, _, _,
        hrow.planted hp hroot (settled_retruth hu hv root)⟩
      refine ⟨{ a with truth := v }, ?_, Option.some.inj hw ▸ beq_self_of_isValid hv⟩
      rw [get?_retruth, ha, Option.map_some, if_pos (id_of_get? ha)]

/-- A valid truth value is given by its record. -/
theorem given_toValue {v : Truth} (hv : v.IsValid) : Given v.toValue (some v) := by
  refine .truth ?_
  show Truth.ofNumbers (.float v.strength) (.float v.confidence) = .ok v
  unfold Truth.ofNumbers Truth.unit
  dsimp only
  rw [if_pos hv.strength, if_pos hv.confidence]
  rfl

/-- In every reachable store a ground tree that was read is asserted if its nodes have names. Its
root reads back as the tree and has the truth value that is given, all other atoms are kept or
belong to what was missing, and asserting it again changes nothing. -/
theorem assertValue_plants (h : s.Reachable) {text : String} (hp : Pattern.parse text = .ok p)
    (hground : p.isGround = true) (hnamed : p.Named) {v : Value} (ht : Given v t) :
    ∃ root s', (assertValue p v).run.run s = (.ok root, s') ∧ s'.toPattern root = .ok p ∧
      (∃ old new qs, Planted s p t root s' old new qs) ∧
      (∀ u, t = some u → ∃ a, s'.get? root = some a ∧ (a.truth == u) = true) ∧
      (assertValue p v).run.run s' = (.ok root, s') := by
  have hg := grammatical_of_parse hp
  obtain ⟨_, _, hderives⟩ := derives_of_parse hp
  have hfits : p.fits = true := fits_of_derives hderives (isGround_iff.1 hground) hnamed
  have hvalid : ∀ u, t = some u → u.IsValid := by
    rintro u rfl
    cases ht with
    | truth hu => exact Truth.isValid_of_ofValue hu
  obtain ⟨root, s', hrun, hstands, hplanted⟩ := assert_stands h.inv hg hground hfits hvalid
  refine ⟨root, s', ?_, toPattern_of_existing hstands.inv hg hstands.existing, hplanted,
    hstands.truth, ?_⟩
  · rw [run_assertValue_of_given hground ht, hrun]
  · rw [run_assertValue_of_given hground ht, run_assert_of_stands hstands hground]

/-- A tree with repeated parts, asserted where there are two nodes of one of its names. -/
theorem assertValue_plants_twice :
    let a : Pattern := .node (.node .concept) "a"
    let b : Pattern := .node (.node .concept) "b"
    let p : Pattern := .link (.link .list) [a, .link (.link .inheritance) [a, b], b]
    let text :=
      "(List (Concept \"a\") (Inheritance (Concept \"a\") (Concept \"b\")) (Concept \"b\"))"
    let first := ((add (.text "ConceptNode") (.text "a") [] .null).run.run empty).2
    let s := ((add (.text "ConceptNode") (.text "a") [] .null).run.run first).2
    let t : Truth := ⟨1.0, 0.5⟩
    s.Reachable ∧ s.ids = [1, 2] ∧ Pattern.parse text = .ok p ∧ p.isGround = true ∧ p.Named ∧
      Given t.toValue (some t) ∧
      ((assertValue p t.toValue).run.run s).2.ids = [1, 2, 3, 4, 5] ∧
      ∃ root s', (assertValue p t.toValue).run.run s = (.ok root, s') ∧ s'.toPattern root = .ok p ∧
        (∃ old new qs, Planted s p (some t) root s' old new qs) ∧
        (assertValue p t.toValue).run.run s' = (.ok root, s') := by
  intro a b p text first s t
  have hs : s.Reachable := (Reachable.empty.add ..).add ..
  have hp : Pattern.parse text = .ok p := ok_of_toOption (by decide +kernel)
  have hground : p.isGround = true := by decide
  have hnamed : p.Named := named_of_fits (by decide +kernel)
  have ht : Given t.toValue (some t) := given_toValue ⟨by decide, by decide⟩
  obtain ⟨root, s', hrun, hread, hplanted, _, hagain⟩ := assertValue_plants hs hp hground hnamed ht
  exact ⟨hs, by decide +kernel, hp, hground, hnamed, ht, by decide +kernel, root, s', hrun, hread,
    hplanted, hagain⟩

end Store

end Credence
