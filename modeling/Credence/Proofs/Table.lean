import Mathlib.Logic.Function.Basic
import Credence.Table
/-!
# What a table holds

A table whose keys differ holds exactly its entries. A table made of pairs that follow
one function holds the values of that function. Insertions under new keys append their
pairs. A table whose keys are changed by an injective function answers for the changed
keys as before.
-/

namespace Credence.Table

variable {κ α : Type} [DecidableEq κ]

theorem nodup_keys_insert {t : Table κ α} (h : t.keys.Nodup) (k : κ) (a : α) :
    (t.insert k a).keys.Nodup := by
  rw [keys_insert]
  split
  · exact h
  · next hk =>
    refine List.nodup_append.2 ⟨h, List.pairwise_singleton _ k, fun j hj l hl heq => ?_⟩
    rw [List.mem_singleton.1 hl] at heq
    exact hk (heq ▸ hj)

theorem mem_of_mem_put {es : List (κ × α)} {k : κ} {a : α} {e : κ × α} (h : e ∈ put k a es) :
    e ∈ es ∨ e = (k, a) := by
  induction es with
  | nil => exact .inr (List.mem_singleton.1 h)
  | cons d ds ih =>
    unfold put at h
    split at h
    · rcases List.mem_cons.1 h with he | he
      · exact .inr he
      · exact .inl (List.mem_cons_of_mem _ he)
    · rcases List.mem_cons.1 h with he | he
      · exact .inl (he ▸ List.mem_cons_self ..)
      · exact (ih he).imp_left (List.mem_cons_of_mem _)

/-- An insertion brings in its own entry only. -/
theorem mem_of_mem_insert {t : Table κ α} {k : κ} {a : α} {e : κ × α}
    (h : e ∈ (t.insert k a).entries) : e ∈ t.entries ∨ e = (k, a) := mem_of_mem_put h

theorem mem_of_mem_ofList {es : List (κ × α)} {e : κ × α} (h : e ∈ (ofList es).entries) : e ∈ es := by
  suffices hfold : ∀ t : Table κ α, e ∈ (es.foldl (fun t e => t.insert e.1 e.2) t).entries →
      e ∈ t.entries ∨ e ∈ es from (hfold empty h).resolve_left nofun
  clear h
  induction es with
  | nil => exact fun _ => .inl
  | cons d ds ih =>
    intro t h
    rcases ih _ h with h | h
    · exact (mem_of_mem_insert h).imp_right fun hd => List.mem_cons.2 (.inl hd)
    · exact .inr (List.mem_cons_of_mem _ h)

theorem find_of_mem {es : List (κ × α)} (h : (es.map Prod.fst).Nodup) {e : κ × α} (he : e ∈ es) :
    find e.1 es = some e.2 := by
  induction es with
  | nil => cases he
  | cons d ds ih =>
    obtain ⟨hd, hds⟩ := List.nodup_cons.1 h
    unfold find
    rcases List.mem_cons.1 he with rfl | he
    · rw [if_pos rfl]
    · rw [if_neg, ih hds he]
      intro heq
      exact hd (heq ▸ List.mem_map_of_mem he)

theorem mem_of_find {es : List (κ × α)} {k : κ} {a : α} (h : find k es = some a) :
    (k, a) ∈ es := by
  induction es with
  | nil => cases h
  | cons d ds ih =>
    unfold find at h
    split at h
    · next hk =>
      cases h
      rw [← hk]
      exact List.mem_cons_self ..
    · exact List.mem_cons_of_mem _ (ih h)

/-- A table of pairs that follow one function holds its values. -/
theorem get?_foldl_insert {f : κ → α} {es : List (κ × α)}
    (h : ∀ e ∈ es, e.2 = f e.1) (t : Table κ α) (k : κ) :
    (es.foldl (fun t e => t.insert e.1 e.2) t).get? k =
      if k ∈ es.map Prod.fst then some (f k) else t.get? k := by
  induction es generalizing t with
  | nil => rfl
  | cons e es ih =>
    rw [List.foldl_cons, ih (fun d hd => h d (List.mem_cons_of_mem _ hd)), get?_insert]
    simp only [List.map_cons, List.mem_cons]
    by_cases hk : k ∈ es.map Prod.fst
    · rw [if_pos hk, if_pos (.inr hk)]
    · rw [if_neg hk]
      by_cases he : e.1 = k
      · rw [if_pos he, if_pos (.inl he.symm), h e (List.mem_cons_self ..), he]
      · rw [if_neg he, if_neg]
        rintro (heq | hin)
        · exact he heq.symm
        · exact hk hin

theorem get?_map {β : Type} (t : Table κ α) (f : α → β) (k : κ) :
    (t.map f).get? k = (t.get? k).map f := by
  show find k (t.entries.map fun e => (e.1, f e.2)) = (find k t.entries).map f
  induction t.entries with
  | nil => rfl
  | cons e es ih =>
    rw [List.map_cons]
    unfold find
    rw [ih]
    split <;> rfl

theorem mem_keys_iff {t : Table κ α} {k : κ} : k ∈ t.keys ↔ t.contains k = true := by
  unfold contains get? keys
  rw [← Classical.not_not (a := k ∈ _), ← find_eq_none_iff, ← Option.not_isSome_iff_eq_none]
  exact Classical.not_not

/-- Tables without repetitions over the same keys are of the same size. -/
theorem size_eq_of_contains {β : Type} {t : Table κ α} {u : Table κ β} (ht : t.keys.Nodup)
    (hu : u.keys.Nodup) (h : ∀ k, t.contains k = true ↔ u.contains k = true) :
    t.size = u.size := by
  have hperm : t.keys.Perm u.keys := (List.perm_ext_iff_of_nodup ht hu).2 fun k => by
    rw [mem_keys_iff, mem_keys_iff, h k]
  have hlen := hperm.length_eq
  unfold keys at hlen
  rwa [List.length_map, List.length_map] at hlen

/-! ## New keys -/

theorem put_of_not_mem {es : List (κ × α)} {k : κ} (h : k ∉ es.map Prod.fst) (a : α) :
    put k a es = es ++ [(k, a)] := by
  induction es with
  | nil => rfl
  | cons e es ih =>
    simp only [List.map_cons, List.mem_cons, not_or] at h
    unfold put
    rw [if_neg fun heq => h.1 heq.symm, ih h.2]
    rfl

theorem find_append (k : κ) (es ds : List (κ × α)) :
    find k (es ++ ds) = (find k es).or (find k ds) := by
  induction es with
  | nil => rfl
  | cons e es ih =>
    obtain ⟨j, a⟩ := e
    by_cases hj : j = k
    · simp [find, hj]
    · simp [find, hj, ih]

/-- Insertions under new keys append the pairs in order. -/
theorem entries_foldl_insert {β : Type} {key : β → κ} {value : β → α} {xs : List β}
    (t : Table κ α) (h : (t.keys ++ xs.map key).Nodup) :
    (xs.foldl (fun t x => t.insert (key x) (value x)) t).entries =
      t.entries ++ xs.map fun x => (key x, value x) := by
  induction xs generalizing t with
  | nil => exact (List.append_nil _).symm
  | cons x xs ih =>
    have hx : key x ∉ t.keys := fun hin =>
      (List.nodup_append.1 h).2.2 _ hin _ (List.mem_cons_self ..) rfl
    have hnext : (t.insert (key x) (value x)).keys = t.keys ++ [key x] := by
      rw [keys_insert, if_neg hx]
    rw [List.foldl_cons, ih _ (by rw [hnext, List.append_assoc]; exact h)]
    show put (key x) (value x) t.entries ++ _ = _
    rw [put_of_not_mem hx, List.append_assoc]
    rfl

/-- Insertions that leave known keys alone keep, for each key, the first value. -/
theorem get?_foldl_setDefault (t : Table κ α) (es : List (κ × α)) (k : κ) :
    (es.foldl (fun t e => if t.contains e.1 then t else t.insert e.1 e.2) t).get? k =
      (t.get? k).or (find k es) := by
  induction es generalizing t with
  | nil => exact (Option.or_none ..).symm
  | cons e es ih =>
    rw [List.foldl_cons, ih, find]
    unfold contains
    cases ht : t.get? e.1 with
    | some a =>
      rw [if_pos Option.isSome_some]
      split
      · next hk => rw [← hk, ht, Option.some_or, Option.some_or]
      · rfl
    | none =>
      rw [if_neg (by simp), get?_insert]
      split
      · next hk => rw [← hk, ht, Option.some_or, Option.none_or]
      · rfl

/-- The values of a table at some keys. -/
theorem find_filterMap_get? {β : Type} (key : β → κ) (t : Table κ α) (xs : List β) (k : κ) :
    find k (xs.filterMap fun x => (t.get? (key x)).map fun a => (key x, a)) =
      if k ∈ xs.map key then t.get? k else none := by
  induction xs with
  | nil => rfl
  | cons x xs ih =>
    by_cases hk : key x = k
    · subst hk
      cases hx : t.get? (key x) with
      | none => simp [hx, ih]
      | some a => simp [hx, find]
    · have hk' : ¬ k = key x := fun h => hk h.symm
      cases hx : t.get? (key x) with
      | none => simp [hx, ih, hk']
      | some a => simp [hx, find, hk, hk', ih]

/-! ## Other keys -/

section Relabel

variable {κ' β : Type} [DecidableEq κ'] {f : κ → κ'} {g : α → β}

/-- The table with its keys and values changed by functions. -/
def relabel (f : κ → κ') (g : α → β) (t : Table κ α) : Table κ' β :=
  ⟨t.entries.map fun e => (f e.1, g e.2)⟩

theorem get?_relabel (hf : Function.Injective f) (t : Table κ α) (k : κ) :
    (t.relabel f g).get? (f k) = (t.get? k).map g := by
  show find (f k) (t.entries.map fun e => (f e.1, g e.2)) = (find k t.entries).map g
  induction t.entries with
  | nil => rfl
  | cons e es ih =>
    rw [List.map_cons]
    unfold find
    rw [ih]
    simp only [hf.eq_iff]
    split <;> rfl

theorem insert_relabel (hf : Function.Injective f) (t : Table κ α) (k : κ) (a : α) :
    (t.relabel f g).insert (f k) (g a) = (t.insert k a).relabel f g := by
  refine congrArg Table.mk ?_
  show put (f k) (g a) (t.entries.map fun e => (f e.1, g e.2)) = (put k a t.entries).map _
  induction t.entries with
  | nil => rfl
  | cons e es ih =>
    rw [List.map_cons]
    unfold put
    rw [ih]
    simp only [hf.eq_iff]
    split <;> rfl

theorem ofList_relabel (hf : Function.Injective f) (es : List (κ × α)) :
    ofList (es.map fun e => (f e.1, g e.2)) = (ofList es).relabel f g := by
  unfold ofList
  rw [List.foldl_map]
  suffices hfold : ∀ t : Table κ α, es.foldl (fun u e => u.insert (f e.1) (g e.2)) (t.relabel f g) =
      (es.foldl (fun t e => t.insert e.1 e.2) t).relabel f g from hfold empty
  induction es with
  | nil => exact fun _ => rfl
  | cons e es ih =>
    intro t
    rw [List.foldl_cons, List.foldl_cons, insert_relabel hf, ih]

end Relabel

end Credence.Table
