import Credence.Time.Precedence
import Mathlib.Data.List.Chain
import Mathlib.Data.List.Nodup
/-!
# What a cycle of precedence is

The search for a cycle keeps a path along the edges, without repetitions, and what it
still has to visit from a label are successors of that label. So what it gives is a
cycle of the graph. Where some measure grows along every edge there is none.
-/

namespace Credence.Precedence

variable {edges : List Edge} {path : List Visit} {l next : String} {pending : List String}

/-- Labels along the edges that come back to the first one, and to no other. -/
structure IsCycle (edges : List Edge) (ls : List String) : Prop where
  chain : ls.IsChain fun l l' => (l, l') ∈ edges
  long : 2 ≤ ls.length
  closed : ls.head? = ls.getLast?
  nodup : ls.dropLast.Nodup

theorem mem_successors {l' : String} : l' ∈ successors edges l ↔ (l, l') ∈ edges := by
  unfold successors
  rw [Text.mem_sorted, mem_distinct, List.mem_map]
  constructor
  · rintro ⟨e, he, rfl⟩
    rw [List.mem_filter, decide_eq_true_eq] at he
    rw [← he.2]
    exact he.1
  · intro h
    exact ⟨(l, l'), List.mem_filter.2 ⟨h, decide_eq_true rfl⟩, rfl⟩

theorem labels_cons (v : Visit) (path : List Visit) :
    labels (v :: path) = labels path ++ [v.label] := by
  unfold labels
  rw [List.map_cons, List.reverse_cons]

/-! ## The path of the search -/

/-- A path along the edges, without repetitions, from each of whose labels only successors are
still to visit. -/
structure Trail (edges : List Edge) (path : List Visit) : Prop where
  chain : (labels path).IsChain fun l l' => (l, l') ∈ edges
  nodup : (labels path).Nodup
  pending : ∀ v ∈ path, ∀ l ∈ v.pending, (v.label, l) ∈ edges

theorem Trail.start (edges : List Edge) (l : String) :
    Trail edges [⟨l, successors edges l⟩] where
  chain := List.isChain_singleton l
  nodup := List.nodup_singleton l
  pending v hv l' hl' := by
    rw [List.mem_singleton.1 hv] at hl' ⊢
    exact mem_successors.1 hl'

theorem Trail.back {v : Visit} (h : Trail edges (v :: path)) : Trail edges path where
  chain := (labels_cons v path ▸ h.chain).left_of_append
  nodup := (labels_cons v path ▸ h.nodup).of_append_left
  pending w hw := h.pending w (List.mem_cons_of_mem _ hw)

/-- A successor is left out. -/
theorem Trail.skip (h : Trail edges (⟨l, next :: pending⟩ :: path)) :
    Trail edges (⟨l, pending⟩ :: path) where
  chain := h.chain
  nodup := h.nodup
  pending v hv l' hl' := by
    rcases List.mem_cons.1 hv with rfl | hv
    · exact h.pending _ (List.mem_cons_self ..) l' (List.mem_cons_of_mem _ hl')
    · exact h.pending v (List.mem_cons_of_mem _ hv) l' hl'

theorem Trail.edge_next (h : Trail edges (⟨l, next :: pending⟩ :: path)) : (l, next) ∈ edges :=
  h.pending _ (List.mem_cons_self ..) next (List.mem_cons_self ..)

/-- The last label of a path goes on to its next successor. -/
theorem Trail.chain_next (h : Trail edges (⟨l, next :: pending⟩ :: path)) :
    (labels (⟨l, pending⟩ :: path) ++ [next]).IsChain fun l l' => (l, l') ∈ edges := by
  refine h.chain.append (List.isChain_singleton next) fun x hx y hy => ?_
  rw [labels_cons, List.getLast?_append] at hx
  cases hx
  cases hy
  exact h.edge_next

/-- A successor that is not on the path is visited. -/
theorem Trail.push (h : Trail edges (⟨l, next :: pending⟩ :: path))
    (hnew : next ∉ labels (⟨l, pending⟩ :: path)) :
    Trail edges (⟨next, successors edges next⟩ :: ⟨l, pending⟩ :: path) where
  chain := labels_cons ⟨next, successors edges next⟩ _ ▸ h.chain_next
  nodup := by
    rw [labels_cons]
    refine List.nodup_append.2 ⟨h.nodup, List.nodup_singleton next, fun x hx y hy heq => ?_⟩
    rw [heq, List.mem_singleton.1 hy] at hx
    exact hnew hx
  pending v hv l' hl' := by
    rcases List.mem_cons.1 hv with rfl | hv
    · exact mem_successors.1 hl'
    · exact h.skip.pending v hv l' hl'

/-- A successor on the path closes a cycle. -/
theorem Trail.closes (h : Trail edges (⟨l, next :: pending⟩ :: path))
    (hold : next ∈ labels (⟨l, pending⟩ :: path)) :
    IsCycle edges (((labels (⟨l, pending⟩ :: path)).dropWhile fun x => x ≠ next) ++ [next]) := by
  obtain ⟨xs, ys, hsplit, hxs⟩ := List.eq_append_cons_of_mem hold
  have hdrop : (labels (⟨l, pending⟩ :: path)).dropWhile (fun x => x ≠ next) = next :: ys := by
    rw [hsplit, List.dropWhile_append_of_pos, List.dropWhile_cons_of_neg]
    · simp
    · intro x hx
      exact decide_eq_true fun heq => hxs (heq ▸ hx)
  have hchain := h.chain_next
  have hnodup := h.nodup
  rw [show labels (⟨l, next :: pending⟩ :: path) = labels (⟨l, pending⟩ :: path) from rfl,
    hsplit] at hnodup
  rw [hsplit, List.append_assoc] at hchain
  rw [hdrop]
  exact
    { chain := hchain.right_of_append
      long := by simp
      closed := List.getLast?_concat.symm
      nodup := by
        rw [List.dropLast_concat]
        exact hnodup.of_append_right }

/-! ## What is found -/

theorem isCycle_of_follow {seen c : List String} (ht : Trail edges path)
    (h : follow edges path seen = .error c) : IsCycle edges c := by
  fun_induction follow edges path seen with
  | case1 => cases h
  | case2 l path seen ih => exact ih ht.back h
  | case3 l next pending path seen here hold =>
    cases h
    exact ht.closes hold
  | case4 l next pending path seen here hnew hunseen ih => exact ih (ht.push hnew) h
  | case5 l next pending path seen here hnew hseen ih => exact ih ht.skip h

theorem isCycle_of_searchFrom {ls seen c : List String} (h : searchFrom edges ls seen = some c) :
    IsCycle edges c := by
  fun_induction searchFrom edges ls seen with
  | case1 => cases h
  | case2 l ls seen hseen ih => exact ih h
  | case3 l ls seen hnew c' hfollow =>
    cases h
    exact isCycle_of_follow (.start edges l) hfollow
  | case4 l ls seen hnew seen' hfollow ih => exact ih h

/-- What the search gives is a cycle. -/
theorem isCycle_of_cycle? {c : List String} (h : cycle? edges = some c) : IsCycle edges c :=
  isCycle_of_searchFrom h

/-- Where a measure grows along every edge, nothing comes back to its start. -/
theorem not_isCycle (rank : String → Int) (h : ∀ e ∈ edges, rank e.1 < rank e.2)
    (c : List String) : ¬ IsCycle edges c := by
  intro hc
  have hranks : (c.map rank).IsChain (· < ·) :=
    List.isChain_map_of_isChain rank (fun l l' he => h (l, l') he) hc.chain
  obtain ⟨l, l', ls, rfl⟩ : ∃ l l' ls, c = l :: l' :: ls := by
    match c, hc.long with
    | l :: l' :: ls, _ => exact ⟨l, l', ls, rfl⟩
  have hlast : l ∈ l' :: ls := by
    have hclosed := hc.closed
    rw [List.getLast?_cons_cons, List.head?_cons] at hclosed
    exact List.mem_of_getLast? hclosed.symm
  exact Int.lt_irrefl _ (hranks.rel_cons (List.mem_map_of_mem hlast))

theorem cycle?_eq_none (rank : String → Int) (h : ∀ e ∈ edges, rank e.1 < rank e.2) :
    cycle? edges = none := by
  cases hc : cycle? edges with
  | none => rfl
  | some c => exact absurd (isCycle_of_cycle? hc) (not_isCycle rank h c)

end Credence.Precedence
