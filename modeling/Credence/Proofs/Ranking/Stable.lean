import Mathlib.Data.List.Basic
/-!
# Sorting what compares

Merge sort puts a list in order if the order is total and transitive on the items of the
list; it need not be on others, as with doubles, where what is no number compares with
nothing. Items that stand level keep their places.
-/

namespace Credence

variable {α : Type}

/-- A list in order, items that stand level by their places in the list that it was sorted from. -/
def Ranked (le : α → α → Bool) (l sorted : List α) : Prop :=
  ∃ places : List (α × Nat), places.Perm l.zipIdx ∧ places.map Prod.fst = sorted ∧
    places.Pairwise fun x y => le x.1 y.1 = true ∧ (le y.1 x.1 = true → x.2 < y.2)

variable {le : α → α → Bool} {l sorted : List α}

theorem Ranked.perm (h : Ranked le l sorted) : sorted.Perm l := by
  obtain ⟨places, hperm, rfl, -⟩ := h
  have hfst := hperm.map Prod.fst
  rwa [List.zipIdx_map_fst] at hfst

theorem Ranked.pairwise (h : Ranked le l sorted) :
    sorted.Pairwise fun a b => le a b = true := by
  obtain ⟨places, -, rfl, hplaces⟩ := h
  exact List.pairwise_map.2 (hplaces.imp fun hxy => hxy.1)

/-- No item comes before the first. -/
theorem Ranked.head_le (h : Ranked le l sorted) {best : α} (hbest : sorted.head? = some best)
    (hrefl : le best best = true) : ∀ a ∈ l, le best a = true := by
  intro a ha
  obtain ⟨rest, rfl⟩ := List.head?_eq_some_iff.1 hbest
  rcases List.mem_cons.1 (h.perm.mem_iff.2 ha) with rfl | hrest
  · exact hrefl
  · exact (List.pairwise_cons.1 h.pairwise).1 a hrest

section

variable {P : α → Prop}

open Classical in
/-- An order on the items of a kind, with all others before them. -/
noncomputable def among (P : α → Prop) (le : α → α → Bool) (a b : α) : Bool :=
  decide (P b → P a ∧ le a b = true)

theorem among_iff {a b : α} : among P le a b = true ↔ (P b → P a ∧ le a b = true) := by
  simp only [among, decide_eq_true_iff]

theorem among_eq {a b : α} (ha : P a) (hb : P b) : among P le a b = le a b :=
  Bool.eq_iff_iff.2 (among_iff.trans ⟨fun h => (h hb).2, fun h _ => ⟨ha, h⟩⟩)

theorem among_trans
    (trans : ∀ a b c, P a → P b → P c → le a b = true → le b c = true → le a c = true)
    (a b c : α) (hab : among P le a b = true) (hbc : among P le b c = true) :
    among P le a c = true := by
  refine among_iff.2 fun hc => ?_
  obtain ⟨hb, hlebc⟩ := among_iff.1 hbc hc
  obtain ⟨ha, hleab⟩ := among_iff.1 hab hb
  exact ⟨ha, trans a b c ha hb hc hleab hlebc⟩

theorem among_total (total : ∀ a b, P a → P b → le a b = true ∨ le b a = true) (a b : α) :
    (among P le a b || among P le b a) = true := by
  rw [Bool.or_eq_true, among_iff, among_iff]
  by_cases ha : P a
  · by_cases hb : P b
    · exact (total a b ha hb).imp (fun h _ => ⟨ha, h⟩) fun h _ => ⟨hb, h⟩
    · exact .inl fun hb' => absurd hb' hb
  · exact .inr fun ha' => absurd ha' ha

theorem pairwise_zipIdx_ne (l : List α) : l.zipIdx.Pairwise fun x y => x.2 ≠ y.2 := by
  have hnodup : (l.zipIdx.map Prod.snd).Nodup := by
    rw [List.zipIdx_map_snd]
    exact List.nodup_range'
  exact List.pairwise_map.1 hnodup

/-- A list of items of a kind is sorted if the order is total and transitive on the kind. -/
theorem ranked_mergeSort (trans : ∀ a b c, P a → P b → P c → le a b = true → le b c = true →
      le a c = true) (total : ∀ a b, P a → P b → le a b = true ∨ le b a = true)
    (hl : ∀ a ∈ l, P a) : Ranked le l (l.mergeSort le) := by
  have hsort : l.mergeSort (among P le) = l.mergeSort le := by
    have hmap := List.map_mergeSort (r := among P le) (s := le) (f := id) (l := l)
      fun a ha b hb => among_eq (hl a ha) (hl b hb)
    rwa [List.map_id, List.map_id] at hmap
  -- The sort that also looks at the places leaves no two items level.
  have hperm := List.mergeSort_perm l.zipIdx (List.zipIdxLE (among P le))
  have hsorted := List.pairwise_mergeSort (List.zipIdxLE_trans (among_trans trans))
    (List.zipIdxLE_total (among_total total)) l.zipIdx
  have hapart := (hperm.symm.pairwise_iff fun h => h.symm).1 (pairwise_zipIdx_ne l)
  refine ⟨_, hperm, List.mergeSort_zipIdx.trans hsort, ?_⟩
  refine (hsorted.and hapart).imp_of_mem fun {x y} hx hy h => ?_
  obtain ⟨hle, hne⟩ := h
  have hxl : P x.1 := hl _ (List.fst_mem_of_mem_zipIdx (hperm.mem_iff.1 hx))
  have hyl : P y.1 := hl _ (List.fst_mem_of_mem_zipIdx (hperm.mem_iff.1 hy))
  unfold List.zipIdxLE at hle
  rw [among_eq hxl hyl, among_eq hyl hxl] at hle
  split at hle
  · next hxy =>
    refine ⟨hxy, fun hyx => ?_⟩
    rw [if_pos hyx, decide_eq_true_iff] at hle
    omega
  · cases hle

end

end Credence
