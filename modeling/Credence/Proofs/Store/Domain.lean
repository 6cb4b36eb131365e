import Credence.Proofs.Except
import Credence.Proofs.Store.Invariant
import Credence.Store.Reference
import Mathlib.Data.List.Induction
/-!
# Domains

A domain is a list of references without repetitions, where references that name one atom
count as one. So its atoms are those that the references name, each at its first place.
-/

namespace Credence

theorem distinct_concat {α : Type} [DecidableEq α] (xs : List α) (x : α) :
    distinct (xs ++ [x]) = if x ∈ xs then distinct xs else distinct xs ++ [x] := by
  induction xs with
  | nil => simp [distinct]
  | cons y ys ih =>
    rw [List.cons_append, distinct, ih, distinct]
    by_cases hy : x = y
    · subst hy
      by_cases hx : x ∈ ys <;> simp [hx]
    · by_cases hx : x ∈ ys <;> simp [hx, hy]

namespace Reference

theorem distinct_concat (rs : List Reference) (r : Reference) :
    Reference.distinct (rs ++ [r]) =
      if (Reference.distinct rs).any r.agrees then Reference.distinct rs
      else Reference.distinct rs ++ [r] := by
  unfold Reference.distinct
  rw [List.foldl_concat, List.any_reverse]
  split <;> simp

end Reference

namespace Store

variable {s : Store} {r r' : Reference} {id id' : AtomId}

theorem locate_eq_ok_iff :
    s.locate r = .ok id ↔ ∃ v, r = .number (.ofNat id) v ∧ s.contains id = true := by
  unfold locate find?
  constructor
  · intro h
    split at h
    · next id' hid =>
      cases h
      split at hid
      · next n v =>
        split at hid
        · next hn =>
          cases hid
          exact ⟨v, rfl, hn⟩
        · cases hid
      · cases hid
    · cases h
  · rintro ⟨v, rfl, hid⟩
    simp only [hid, if_true]

/-- References to stored atoms agree if they name the same atom, and what agrees with one names its
atom. -/
theorem locate_of_agrees (h : s.locate r' = .ok id) (hr : r.agrees r' = true) :
    s.locate r = .ok id := by
  obtain ⟨v, rfl, hid⟩ := locate_eq_ok_iff.1 h
  cases r with
  | number n w =>
    unfold Reference.agrees at hr
    obtain rfl : n = .ofNat id := beq_iff_eq.1 hr
    exact locate_eq_ok_iff.2 ⟨w, rfl, hid⟩
  | other w => cases hr

theorem agrees_of_locate (h : s.locate r = .ok id) (h' : s.locate r' = .ok id) :
    r.agrees r' = true := by
  obtain ⟨v, rfl, -⟩ := locate_eq_ok_iff.1 h
  obtain ⟨w, rfl, -⟩ := locate_eq_ok_iff.1 h'
  exact beq_iff_eq.2 rfl

theorem mapM_locate_of_distinct {rs : List Reference} {ids : List AtomId}
    (h : (Reference.distinct rs).mapM s.locate = .ok ids) :
    ∃ all, rs.mapM s.locate = .ok all ∧ ids = distinct all := by
  induction rs using List.reverseRecOn generalizing ids with
  | nil =>
    cases h
    exact ⟨[], rfl, rfl⟩
  | append_singleton rs r ih =>
    have hsnoc : ∀ {xs : List Reference} {ids : List AtomId} {id : AtomId},
        xs.mapM s.locate = .ok ids → s.locate r = .ok id →
        (xs ++ [r]).mapM s.locate = .ok (ids ++ [id]) := by
      intro xs ids id hxs hr
      exact mapM_eq_ok_iff.2 (List.rel_append (forall₂_of_mapM hxs) (.cons hr .nil))
    rw [Reference.distinct_concat] at h
    split at h
    · next hany =>
      -- The reference agrees with an earlier one, and so names its atom.
      obtain ⟨all, hall, rfl⟩ := ih h
      obtain ⟨r', hr', hagrees⟩ := List.any_eq_true.1 hany
      obtain ⟨id, hid, hloc⟩ := exists_of_mem_mapM h hr'
      refine ⟨all ++ [id], hsnoc hall (locate_of_agrees hloc hagrees), ?_⟩
      rw [distinct_concat, if_pos ((mem_distinct id all).1 hid)]
    · next hnone =>
      obtain ⟨ids₀, x, hids₀, hx, rfl⟩ : ∃ ids₀ x, (Reference.distinct rs).mapM s.locate = .ok ids₀ ∧
          s.locate r = .ok x ∧ ids = ids₀ ++ [x] := by
        rw [List.mapM_append] at h
        obtain ⟨ids₀, h₀, h⟩ := bind_eq_ok h
        obtain ⟨ids₁, h₁, h⟩ := bind_eq_ok h
        cases h
        cases forall₂_of_mapM h₁ with
        | cons hx hnil =>
          cases hnil
          exact ⟨ids₀, _, h₀, hx, rfl⟩
      obtain ⟨all, hall, rfl⟩ := ih hids₀
      have hnew : x ∉ all := by
        intro hmem
        obtain ⟨r', hr', hloc⟩ :=
          exists_of_mem_forall₂ (forall₂_of_mapM hids₀) ((mem_distinct x all).2 hmem)
        exact hnone (List.any_eq_true.2 ⟨r', hr', agrees_of_locate hx hloc⟩)
      refine ⟨all ++ [x], hsnoc hall hx, ?_⟩
      rw [distinct_concat, if_neg hnew]

/-- The atoms of a domain are those that its references name, each at its first place. -/
theorem exists_of_domain {vs : List Value} {ids : List AtomId} (h : s.domain vs = .ok ids) :
    ∃ all, vs.mapM s.resolve = .ok all ∧ ids = distinct all := by
  obtain ⟨all, hall, hids⟩ := mapM_locate_of_distinct h
  rw [List.mapM_map] at hall
  exact ⟨all, hall, hids⟩

theorem contains_of_domain {vs : List Value} {ids : List AtomId} (h : s.domain vs = .ok ids)
    (hid : id ∈ ids) : s.contains id = true := by
  obtain ⟨r, -, hloc⟩ := exists_of_mem_forall₂ (forall₂_of_mapM h) hid
  obtain ⟨-, -, hid⟩ := locate_eq_ok_iff.1 hloc
  exact hid

theorem nodup_of_domain {vs : List Value} {ids : List AtomId} (h : s.domain vs = .ok ids) :
    ids.Nodup := by
  obtain ⟨all, -, rfl⟩ := exists_of_domain h
  exact nodup_distinct all

theorem map_id_filterMap {ids : List AtomId} (h : ∀ id ∈ ids, s.contains id = true) :
    (ids.filterMap s.get?).map Atom.id = ids := by
  induction ids with
  | nil => rfl
  | cons id ids ih =>
    obtain ⟨hid, hids⟩ := List.forall_mem_cons.1 h
    obtain ⟨a, ha⟩ := Option.isSome_iff_exists.1 hid
    rw [List.filterMap_cons_some ha, List.map_cons, ih hids, id_of_get? ha]

/-- The atoms of a domain, in its order. -/
theorem map_id_of_domain {vs : List Value} {ids : List AtomId} (h : s.domain vs = .ok ids) :
    (ids.filterMap s.get?).map Atom.id = ids :=
  map_id_filterMap fun _ hid => contains_of_domain h hid

theorem get?_of_mem_filterMap {ids : List AtomId} {a : Atom} (ha : a ∈ ids.filterMap s.get?) :
    s.get? a.id = some a := by
  obtain ⟨id, -, hget⟩ := List.mem_filterMap.1 ha
  rwa [id_of_get? hget]

end Store

end Credence
