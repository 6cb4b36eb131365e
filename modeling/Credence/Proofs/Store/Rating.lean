import Credence.Proofs.Inference.Level
import Credence.Proofs.Store.Atomicity
/-!
# The confidences of trees

What an assertion does is described by the confidences of all trees: that of the
asserted tree is replaced, parts of it that were missing get the usual one, and all
others stay. Assertions one after the other come to the same as one account of all.
-/

namespace Credence.Store

open Pattern

variable {s s' : Store}

/-- The confidence of the atom of a tree, if it has one. -/
def rating (s : Store) (q : Pattern) : Option Float :=
  (s.existing q).bind fun id => (s.get? id).map fun a => a.truth.confidence

theorem rating_of_existing {q : Pattern} {id : AtomId} {a : Atom} (hq : s.existing q = some id)
    (ha : s.get? id = some a) : s.rating q = some a.truth.confidence := by
  unfold rating
  rw [hq, Option.bind_some, ha]
  rfl

theorem rating_eq_none_iff {q : Pattern} : s.rating q = none ↔ s.existing q = none := by
  unfold rating
  cases hq : s.existing q with
  | none => simp
  | some id =>
    obtain ⟨a, ha⟩ := Option.isSome_iff_exists.1 (contains_iff.2 (mem_ids_of_existing hq))
    rw [Option.bind_some, ha]
    simp

theorem exists_of_rating {q : Pattern} {x : Float} (hq : s.rating q = some x) :
    ∃ id a, s.existing q = some id ∧ s.get? id = some a ∧ a.truth.confidence = x := by
  obtain ⟨id, hid, hmap⟩ := Option.bind_eq_some_iff.1 hq
  obtain ⟨a, ha, hx⟩ := Option.map_eq_some_iff.1 hmap
  exact ⟨id, a, hid, ha, hx⟩

theorem inUnit_of_rating (h : s.Inv) {q : Pattern} {x : Float} (hq : s.rating q = some x) :
    inUnit x = true := by
  obtain ⟨id, a, _, ha, rfl⟩ := exists_of_rating hq
  exact (h.formed.valid a ((get?_some_iff h.formed.ascending).1 ha).1).confidence

theorem get?_inserted (h : s.Inv) (form : Form) (t : Truth) (written : List Value) (id : AtomId) :
    (s.inserted form t written).get? id =
      if id = s.nextId then some ⟨s.nextId, form, t, written⟩ else s.get? id := by
  rw [get?_inserted_or]
  by_cases hid : id = s.nextId
  · have hnone : s.get? id = none :=
      Option.not_isSome_iff_eq_none.1 fun hsome => nextId_not_mem h (hid ▸ contains_iff.1 hsome)
    rw [hnone, if_pos hid, if_pos hid.symm, Option.none_or]
  · rw [if_neg hid, if_neg (Ne.symm hid), Option.or_none]

theorem get?_retruth (s : Store) (root : AtomId) (t : Truth) (id : AtomId) :
    (s.retruth root t).get? id =
      (s.get? id).map fun a => if a.id = root then { a with truth := t } else a := by
  unfold get?
  rw [atoms_retruth, List.find?_map]
  congr 1
  refine List.find?_congr fun a _ => ?_
  dsimp only [Function.comp]
  split <;> rfl

/-- An atom for a tree that had none gives this tree its confidence. -/
theorem rating_inserted (h : s.Inv) {q : Pattern} {form : Form} (hq : s.formOf q = some form)
    (hnew : s.oldest form = none) (t : Truth) (written : List Value) (p : Pattern) :
    (s.inserted form t written).rating p = if p = q then some t.confidence else s.rating p := by
  unfold rating
  rw [existing_inserted h hq hnew]
  split
  · rw [Option.bind_some, get?_inserted h, if_pos rfl]
    rfl
  · cases hp : s.existing p with
    | none => rfl
    | some id =>
      have hne : id ≠ s.nextId := fun heq => nextId_not_mem h (heq ▸ mem_ids_of_existing hp)
      rw [Option.bind_some, Option.bind_some, get?_inserted h, if_neg hne]

/-- A truth value that is replaced gives its tree another confidence. -/
theorem rating_retruth (h : s.Inv) {q : Pattern} {root : AtomId} (hq : s.existing q = some root)
    (t : Truth) (p : Pattern) :
    (s.retruth root t).rating p = if p = q then some t.confidence else s.rating p := by
  unfold rating
  rw [existing_retruth]
  split
  · next hpq =>
    obtain ⟨a, ha⟩ := Option.isSome_iff_exists.1 (contains_iff.2 (mem_ids_of_existing hq))
    have hid := ((get?_some_iff h.formed.ascending).1 ha).2
    rw [hpq, hq, Option.bind_some, get?_retruth, ha, Option.map_some, if_pos hid]
    rfl
  · next hpq =>
    cases hp : s.existing p with
    | none => rfl
    | some id =>
      rw [Option.bind_some, Option.bind_some, get?_retruth]
      cases ha : s.get? id with
      | none => rfl
      | some a =>
        have hid := ((get?_some_iff h.formed.ascending).1 ha).2
        have hne : a.id ≠ root := fun heq => hpq (existing_inj h (hid.symm.trans heq ▸ hp) hq)
        rw [Option.map_some, Option.map_some, Option.map_some, if_neg hne]

/-! ## Asserting -/

/-- Where a tree has an atom, its parts have. -/
theorem existing_of_part {p q : Pattern} (hq : Part q p) (hp : s.existing p ≠ none) :
    s.existing q ≠ none := by
  refine hq.inherit (P := fun q => s.existing q ≠ none) (fun k cs hne => ?_) hp
  obtain ⟨id, hid⟩ := Option.ne_none_iff_exists'.1 hne
  cases k with
  | node k => cases hid
  | link k =>
    rw [existing_link] at hid
    obtain ⟨ids, hids, _⟩ := Option.bind_eq_some_iff.1 hid
    exact existing_ne_none_of_list hids

variable {J : Pattern → Truth → Prop}

theorem Plant.inv (hJ : ∀ q t, J q t → t.IsValid) (hs : Plant J s s') (h : s.Inv) : s'.Inv := by
  obtain ⟨written, hj, hq, _, hf⟩ := hs
  exact h.inserted hf (refs_of_formOf hq) (hJ _ _ hj) written

theorem Plants.inv (hJ : ∀ q t, J q t → t.IsValid) (hs : Plants J s s') (h : s.Inv) : s'.Inv := by
  induction hs with
  | refl => exact h
  | tail _ hstep ih => exact hstep.inv hJ ih

/-- A tree keeps its confidence, or had none and got one that belongs to it. -/
theorem rating_of_plants (hJ : ∀ q t, J q t → t.IsValid) (hs : Plants J s s') (h : s.Inv)
    (q : Pattern) : s'.rating q = s.rating q ∨
      s.rating q = none ∧ ∃ t, J q t ∧ s'.rating q = some t.confidence := by
  induction hs with
  | refl => exact .inl rfl
  | tail hpre hstep ih =>
    have hinv := Plants.inv hJ hpre h
    obtain ⟨written, hj, hform, hnew, _⟩ := hstep
    rw [rating_inserted hinv hform hnew]
    split
    · next heq =>
      subst heq
      have hnone : rating _ q = none :=
        rating_eq_none_iff.2 ((existing_eq_oldest hform).trans hnew)
      rcases ih with hsame | ⟨_, t, _, hsome⟩
      · exact .inr ⟨hsame.symm.trans hnone, _, hj, rfl⟩
      · rw [hnone] at hsome
        cases hsome
    · exact ih

/-- Asserting a tree with a truth value stores it and then replaces the truth value of its root,
unless the root has it already. -/
theorem plants_of_assert (h : s.Inv) {p : Pattern} {t : Truth} {id : AtomId}
    (hrun : (assert p (some t)).run.run s = (.ok id, s')) :
    ∃ u, Plants (Assigned p t) s u ∧ u.existing p = some id ∧
      (s' = u.retruth id t ∨ s' = u ∧ ∃ a, u.get? id = some a ∧ (a.truth == t) = true) := by
  unfold assert at hrun
  cases hp : p.isGround with
  | false =>
    rw [hp] at hrun
    cases hrun
  | true =>
    rw [hp] at hrun
    obtain ⟨root, u, hensure, hrun⟩ := run_bind_ok (f := fun root => do
      settle root t
      return root) hrun
    have hplants := plants_ensure h (some t) p
    rw [hensure] at hplants
    refine ⟨u, hplants, ?_⟩
    have hroot := (existing_of_run_ensure h hensure).2
    obtain ⟨a, ha⟩ := Option.isSome_iff_exists.1 (contains_iff.2 (mem_ids_of_existing hroot))
    rw [run_bind, run_settle, ha] at hrun
    cases hrun
    refine ⟨hroot, ?_⟩
    dsimp only
    split
    · next heq => exact .inr ⟨rfl, a, ha, heq⟩
    · exact .inl rfl

/-- The confidence of a tree after some trees were asserted with truth values: that of an asserted
tree is the given one, parts of them have the usual one unless they had another, and nothing
happens to other trees. -/
inductive Rated (s : Store) (es : List (Pattern × Truth)) (q : Pattern) : Option Float → Prop
  | root {t : Truth} {x : Float} (hq : (q, t) ∈ es) (hx : Level x t.confidence) :
    Rated s es q (some x)
  | part {e : Pattern × Truth} (he : e ∈ es) (hq : Part q e.1) (hroot : ∀ e ∈ es, e.1 ≠ q) :
    Rated s es q (some ((s.rating q).getD Truth.default.confidence))
  | other (hroot : ∀ e ∈ es, e.1 ≠ q) (hpart : ∀ e ∈ es, ¬ Part q e.1) :
    Rated s es q (s.rating q)

theorem isValid_of_assigned {p q : Pattern} {t u : Truth} (ht : t.IsValid)
    (h : Assigned p t q u) : u.IsValid := by
  rcases h with ⟨_, rfl⟩ | ⟨_, rfl⟩
  · exact ht
  · exact Truth.isValid_default

/-- What asserting one tree does to all confidences. -/
theorem rated_of_assert (h : s.Inv) {p : Pattern} {t : Truth} (ht : t.IsValid) {id : AtomId}
    (hrun : (assert p (some t)).run.run s = (.ok id, s')) (q : Pattern) :
    Rated s [(p, t)] q (s'.rating q) := by
  obtain ⟨u, hplants, hroot, hlast⟩ := plants_of_assert h hrun
  have hJ : ∀ q u, Assigned p t q u → u.IsValid := fun _ _ => isValid_of_assigned ht
  have hu := hplants.inv hJ h
  by_cases hqp : q = p
  · subst hqp
    rcases hlast with rfl | ⟨rfl, a, ha, heq⟩
    · rw [rating_retruth hu hroot, if_pos rfl]
      exact .root (List.mem_singleton_self _) (.refl ht.confidence)
    · rw [rating_of_existing hroot ha]
      have hvalid := hu.formed.valid a ((get?_some_iff hu.formed.ascending).1 ha).1
      exact .root (List.mem_singleton_self _)
        (.of_beq hvalid.confidence ht.confidence (Bool.and_eq_true_iff.1 heq).2)
  · -- Only the root may get another truth value once the tree is stored.
    have hrating : s'.rating q = u.rating q := by
      rcases hlast with rfl | ⟨rfl, _⟩
      · rw [rating_retruth hu hroot, if_neg hqp]
      · rfl
    have hne : ∀ e ∈ [(p, t)], e.1 ≠ q := List.forall_mem_singleton.2 fun heq => hqp heq.symm
    rw [hrating]
    by_cases hpart : Part q p
    · have hsome : u.rating q ≠ none := fun hnone =>
        existing_of_part hpart (by rw [hroot]; exact Option.some_ne_none id)
          (rating_eq_none_iff.1 hnone)
      have hgetD : u.rating q = some ((s.rating q).getD Truth.default.confidence) := by
        rcases rating_of_plants hJ hplants h q with hsame | ⟨hnone, v, hv, hgot⟩
        · rw [hsame] at hsome ⊢
          obtain ⟨x, hx⟩ := Option.ne_none_iff_exists'.1 hsome
          rw [hx]
          rfl
        · rcases hv with ⟨heq, _⟩ | ⟨_, rfl⟩
          · exact absurd heq hqp
          · rw [hgot, hnone]
            rfl
      rw [hgetD]
      exact .part (List.mem_singleton_self _) hpart hne
    · have hsame : u.rating q = s.rating q := by
        refine (rating_of_plants hJ hplants h q).resolve_right ?_
        rintro ⟨_, v, hv, _⟩
        exact hv.elim (fun hroot => hqp hroot.1) fun hp => hpart hp.1
      rw [hsame]
      exact .other hne (List.forall_mem_singleton.2 hpart)

/-- Asserting another tree first comes to the same. -/
theorem Rated.cons {e : Pattern × Truth} {es : List (Pattern × Truth)} {q : Pattern}
    {r : Option Float} (hfirst : Rated s [e] q (s'.rating q)) (h : Rated s' es q r) :
    Rated s (e :: es) q r := by
  have hroots : e.1 ≠ q → (∀ d ∈ es, d.1 ≠ q) → ∀ d ∈ e :: es, d.1 ≠ q :=
    fun hhead htail => List.forall_mem_cons.2 ⟨hhead, htail⟩
  cases h with
  | root hq hx => exact .root (List.mem_cons_of_mem _ hq) hx
  | part hd hq hroot =>
    generalize s'.rating q = r at hfirst ⊢
    cases hfirst with
    | root hmem hx =>
      rw [← List.mem_singleton.1 hmem]
      exact .root (List.mem_cons_self ..) hx
    | part _ _ hne =>
      exact .part (List.mem_cons_of_mem _ hd) hq
        (hroots (hne e (List.mem_singleton_self e)) hroot)
    | other hne _ =>
      exact .part (List.mem_cons_of_mem _ hd) hq
        (hroots (hne e (List.mem_singleton_self e)) hroot)
  | other hroot hpart =>
    generalize s'.rating q = r at hfirst ⊢
    cases hfirst with
    | root hmem hx =>
      rw [← List.mem_singleton.1 hmem]
      exact .root (List.mem_cons_self ..) hx
    | part hmem hq hne =>
      rw [List.mem_singleton.1 hmem] at hq
      exact .part (List.mem_cons_self ..) hq (hroots (hne e (List.mem_singleton_self e)) hroot)
    | other hne hnp =>
      exact .other (hroots (hne e (List.mem_singleton_self e)) hroot)
        (List.forall_mem_cons.2 ⟨hnp e (List.mem_singleton_self e), hpart⟩)

end Credence.Store
