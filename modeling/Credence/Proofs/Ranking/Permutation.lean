import Credence.Rule.Base
/-!
# Ranking permutes

Ranking splits a list into runs and merges them. No step of it loses or repeats an
item, whatever the relation is, so the ranked list is a permutation of the list.
-/

namespace Credence.Ranking

variable {α : Type}

/-! ## Runs -/

theorem insert_perm (before : α → α → Bool) (xs : List α) (x : α) :
    (insert before xs x).Perm (x :: xs) := by
  unfold insert
  refine List.perm_middle.trans ?_
  rw [List.take_append_drop]

theorem foldl_insert_perm (before : α → α → Bool) (xs run : List α) :
    (xs.foldl (insert before) run).Perm (run ++ xs) := by
  induction xs generalizing run with
  | nil => rw [List.append_nil, List.foldl_nil]
  | cons x xs ih =>
    rw [List.foldl_cons]
    refine (ih _).trans (((insert_perm before run x).append_right xs).trans ?_)
    exact List.perm_middle.symm

theorem chain_append (relates : α → α → Bool) (x : α) (xs : List α) :
    (chain relates x xs).1 ++ (chain relates x xs).2 = x :: xs := by
  induction xs generalizing x with
  | nil => rfl
  | cons y rest ih =>
    unfold chain
    split
    · exact congrArg (x :: ·) (ih y)
    · rfl

theorem chain_ne_nil (relates : α → α → Bool) (x : α) (xs : List α) :
    (chain relates x xs).1 ≠ [] := by
  cases xs with
  | nil => simp [chain]
  | cons y rest =>
    unfold chain
    split <;> simp

theorem leadingRun_perm (before : α → α → Bool) (xs : List α) :
    ((leadingRun before xs).1 ++ (leadingRun before xs).2).Perm xs := by
  unfold leadingRun
  split
  · next x y rest =>
    split
    · refine ((List.reverse_perm _).append_right _).trans ?_
      exact .of_eq (chain_append before x (y :: rest))
    · exact .of_eq (chain_append _ x (y :: rest))
  · exact .of_eq (List.append_nil _)

theorem leadingRun_ne_nil (before : α → α → Bool) {xs : List α} (h : xs ≠ []) :
    (leadingRun before xs).1 ≠ [] := by
  unfold leadingRun
  split
  · next x y rest =>
    split
    · exact fun hn => chain_ne_nil before x (y :: rest) (List.reverse_eq_nil_iff.1 hn)
    · exact chain_ne_nil _ x (y :: rest)
  · exact h

theorem nextRun_perm (before : α → α → Bool) (least : Nat) (xs : List α) :
    ((nextRun before least xs).1 ++ (nextRun before least xs).2).Perm xs := by
  refine List.Perm.trans ?_ (leadingRun_perm before xs)
  unfold nextRun
  dsimp only
  refine ((foldl_insert_perm before _ _).append_right _).trans ?_
  rw [List.append_assoc, List.take_append_drop]

theorem length_nextRun_lt (before : α → α → Bool) (least : Nat) {xs : List α} (h : xs ≠ []) :
    (nextRun before least xs).2.length < xs.length := by
  have hlen := (leadingRun_perm before xs).length_eq
  have hpos := List.length_pos_iff.2 (leadingRun_ne_nil before h)
  rw [List.length_append] at hlen
  unfold nextRun
  dsimp only
  rw [List.length_drop]
  omega

/-! ## Merging two runs -/

namespace Merge

/-- What a merge holds. -/
def contents (m : Merge α) : List α := m.a ++ m.b ++ m.merged

theorem join_perm (back : Bool) (merged xs : List α) : (join back merged xs).Perm (xs ++ merged) := by
  unfold join
  split
  · exact .refl _
  · exact List.perm_append_comm

theorem swap_perm (xs ys zs ws : List α) :
    (xs ++ ys ++ (zs ++ ws)).Perm (xs ++ zs ++ ys ++ ws) := by
  simp only [List.append_assoc]
  exact (List.perm_append_comm_assoc ys zs ws).append_left xs

theorem takeA_perm (back : Bool) (n : Nat) (m : Merge α) :
    (m.takeA back n).contents.Perm m.contents := by
  unfold takeA contents
  split
  · refine (swap_perm _ _ _ _).trans ?_
    rw [List.take_append_drop]
  · refine (List.Perm.append_left _ List.perm_append_comm).trans ((swap_perm _ _ _ _).trans ?_)
    refine (List.perm_append_comm.append_right _).append_right _ |>.trans ?_
    rw [List.take_append_drop]

theorem takeB_perm (back : Bool) (n : Nat) (m : Merge α) :
    (m.takeB back n).contents.Perm m.contents := by
  unfold takeB contents
  split
  · dsimp only
    rw [List.append_assoc, ← List.append_assoc (m.b.take _), List.take_append_drop,
      ← List.append_assoc]
  · dsimp only
    rw [List.append_assoc, List.append_assoc]
    refine List.Perm.append_left _ ?_
    refine (List.perm_append_comm_assoc _ _ _).trans ?_
    refine (List.Perm.append_left _ List.perm_append_comm).trans ?_
    rw [List.take_append_drop]
    exact List.perm_append_comm

/-- What a step of a merge leaves: a merge or a merged list of the same items. -/
def Same (m : Merge α) : Except (Merged α) (Merge α) → Prop
  | .ok m' => m'.contents.Perm m.contents
  | .error done => done.1.Perm m.contents

theorem remainder?_perm {back : Bool} {m : Merge α} {rest : List α}
    (h : m.remainder? back = some rest) : rest.Perm (m.a ++ m.b) := by
  obtain ⟨a, b, merged, patience⟩ := m
  unfold remainder? at h
  dsimp only at h ⊢
  split at h
  · split at h
    · cases h
      exact .refl _
    · cases h
      exact .of_eq (List.append_nil _).symm
    · cases h
      exact (List.perm_append_singleton _ _).symm
    · cases h
  · split at h
    · cases h
      exact .of_eq (List.append_nil _).symm
    · cases h
      exact .refl _
    · cases h
      exact List.perm_append_singleton _ _
    · cases h

theorem check_same (back : Bool) (m : Merge α) : Same m (m.check back) := by
  unfold check
  split
  · next rest hrest =>
    exact (join_perm back _ _).trans ((remainder?_perm hrest).append_right _)
  · exact .refl _

theorem Same.trans {m m' : Merge α} {r : Except (Merged α) (Merge α)} (h : Same m' r)
    (hm : m'.contents.Perm m.contents) : Same m r := by
  cases r with
  | ok m'' => exact List.Perm.trans h hm
  | error done => exact List.Perm.trans h hm

theorem check_takeA (back : Bool) (n : Nat) (m : Merge α) :
    Same m ((m.takeA back n).check back) :=
  (check_same back _).trans (takeA_perm back n m)

theorem check_takeB (back : Bool) (n : Nat) (m : Merge α) :
    Same m ((m.takeB back n).check back) :=
  (check_same back _).trans (takeB_perm back n m)

/-- Whether a step that hands on more than a merge keeps the items. -/
def SameWith {β : Type} (m : Merge α) : Except (Merged α) (Merge α × β) → Prop
  | .ok (m', _) => m'.contents.Perm m.contents
  | .error done => done.1.Perm m.contents

theorem Same.bind {β : Type} {m : Merge α} {x : Except (Merged α) (Merge α)}
    {f : Merge α → Except (Merged α) (Merge α × β)} (hx : Same m x)
    (hf : ∀ m', SameWith m' (f m')) : SameWith m (x >>= f) := by
  cases x with
  | error done => exact hx
  | ok m' =>
    have h := hf m'
    show SameWith m (f m')
    cases hr : f m' with
    | error done =>
      rw [hr] at h
      exact List.Perm.trans h hx
    | ok r =>
      rw [hr] at h
      exact List.Perm.trans h hx

theorem round_same (before : α → α → Bool) (back : Bool) (m : Merge α) :
    SameWith m (m.round before back) := by
  unfold round
  dsimp only
  refine Same.bind (m := m) (check_takeA back _ _) fun m₁ => ?_
  refine Same.bind (check_takeB back 1 m₁) fun m₂ => ?_
  refine Same.bind (check_takeB back _ m₂) fun m₃ => ?_
  exact Same.bind (check_takeA back 1 m₃) fun m₄ => List.Perm.refl _

theorem step_same (before : α → α → Bool) (back : Bool) (m : Merge α) (mode : Mode) :
    SameWith m (m.step before back mode) := by
  cases mode with
  | items fromA fromB =>
    unfold step
    dsimp only
    refine Same.bind ?_ fun m' => ?_
    · split
      · exact check_takeB back 1 m
      · exact check_takeA back 1 m
    · split <;> split <;> exact List.Perm.refl _
  | stretches =>
    unfold step
    have h := round_same before back m
    cases hr : m.round before back with
    | error done =>
      rw [hr] at h
      exact h
    | ok r =>
      obtain ⟨m', i, j⟩ := r
      rw [hr] at h
      show SameWith m (if _ then _ else _)
      split <;> exact h

theorem run_perm (before : α → α → Bool) (back : Bool) (steps : Nat) (m : Merge α) (mode : Mode) :
    (run before back steps m mode).1.Perm m.contents := by
  induction steps generalizing m mode with
  | zero => exact join_perm back _ _
  | succ steps ih =>
    have h := step_same before back m mode
    unfold run
    split
    · next hr =>
      rw [hr] at h
      exact h
    · next hr =>
      rw [hr] at h
      exact (ih _ _).trans h

end Merge

theorem Merge.Same.perm {m : Merge α} {r : Except (Merged α) (Merge α)} (h : Merge.Same m r)
    {f : Merge α → Merged α} (hf : ∀ m', (f m').1.Perm m'.contents) :
    (match r with
      | .error done => done
      | .ok m => f m).1.Perm m.contents := by
  cases r with
  | error done => exact h
  | ok m' => exact (hf m').trans h

theorem merge_perm (before : α → α → Bool) (a b : List α) (patience : Nat) :
    (merge before a b patience).1.Perm (a ++ b) := by
  unfold merge
  dsimp only
  split
  · exact .refl _
  · -- What is in its place at either end is left out of the merge; where it ends does not matter.
    generalize gallop _ a 0 = low
    generalize gallop _ b _ = high
    refine (List.Perm.append_right _ (List.Perm.append_left _ (Merge.Same.perm (m :=
      ⟨a.drop low, b.take high, [], patience⟩) ?_ fun m' => Merge.run_perm before _ _ _ _))).trans ?_
    · split
      · exact Merge.check_takeA _ 1 _
      · exact Merge.check_takeB _ 1 _
    · show (a.take low ++ (a.drop low ++ b.take high ++ []) ++ b.drop high).Perm (a ++ b)
      rw [List.append_nil, ← List.append_assoc, List.take_append_drop, List.append_assoc,
        List.take_append_drop]

/-! ## Ranking -/

/-- The items of the runs that wait. -/
def waiting (runs : List (Pending α)) : List α := (runs.map Pending.items).flatten

theorem waiting_cons (x : Pending α) (runs : List (Pending α)) :
    waiting (x :: runs) = x.items ++ waiting runs := rfl

theorem waiting_merge {before : α → α → Bool} {x y : Pending α} {power patience patience' : Nat}
    {items : List α} (h : merge before x.items y.items patience = (items, patience'))
    (rest : List (Pending α)) :
    (waiting (⟨items, power⟩ :: rest)).Perm (waiting (y :: x :: rest)) := by
  have hperm := merge_perm before x.items y.items patience
  rw [h] at hperm
  rw [waiting_cons, waiting_cons, waiting_cons, ← List.append_assoc]
  exact (hperm.trans List.perm_append_comm).append_right _

theorem mergeAbove_perm (before : α → α → Bool) (power : Nat) (runs : List (Pending α))
    (patience : Nat) : (waiting (mergeAbove before power runs patience).1).Perm (waiting runs) := by
  fun_induction mergeAbove before power runs patience with
  | case1 _ y x rest _ items _ hm ih => exact ih.trans (waiting_merge hm rest)
  | case2 => exact .refl _
  | case3 => exact .refl _

theorem settle_perm (before : α → α → Bool) (n length : Nat) (runs : List (Pending α))
    (patience : Nat) : (waiting (settle before n length runs patience).1).Perm (waiting runs) := by
  unfold settle
  split
  · exact .refl _
  · next x rest =>
    dsimp only
    have h := mergeAbove_perm before
      (borderPower (rest.foldl (fun n r => n + r.items.length) 0) x.items.length length n)
      (x :: rest) patience
    split
    · next hr =>
      rw [hr] at h
      exact h
    · next hr =>
      rw [hr] at h
      exact h

theorem collect_perm (before : α → α → Bool) (n fuel : Nat) (xs : List α)
    (runs : List (Pending α)) (patience : Nat) (h : xs.length ≤ fuel) :
    (waiting (collect before n fuel xs runs patience).1).Perm (waiting runs ++ xs) := by
  induction fuel generalizing xs runs patience with
  | zero =>
    obtain rfl := List.length_eq_zero_iff.1 (Nat.le_zero.1 h)
    exact .of_eq (List.append_nil _).symm
  | succ fuel ih =>
    cases xs with
    | nil => exact .of_eq (List.append_nil _).symm
    | cons x xs =>
      -- A run is not empty, so the steps allowed are enough for the items that are left.
      have hlt := length_nextRun_lt before (leastRun n) (List.cons_ne_nil x xs)
      have hrun := nextRun_perm before (leastRun n) (x :: xs)
      unfold collect
      dsimp only
      refine (ih _ _ _ (by omega)).trans ?_
      rw [waiting_cons, List.append_assoc]
      refine (List.perm_append_comm_assoc _ _ _).trans ?_
      exact ((settle_perm before n _ runs patience).append_right _).trans (hrun.append_left _)

theorem collapse_perm (before : α → α → Bool) (runs : List (Pending α)) (patience : Nat) :
    (collapse before runs patience).Perm (waiting runs) := by
  fun_induction collapse before runs patience with
  | case1 => exact .refl _
  | case2 _ x => exact .of_eq (List.append_nil _).symm
  | case3 patience y x =>
    refine (merge_perm before _ _ _).trans (List.perm_append_comm.trans (.of_eq ?_))
    rw [waiting_cons, waiting_cons]
    exact congrArg (y.items ++ ·) (List.append_nil _).symm
  | case4 _ z y x rest _ items _ hm ih =>
    exact ih.trans ((waiting_merge hm rest).append_left z.items)
  | case5 _ z y x rest _ items _ hm ih => exact ih.trans (waiting_merge hm (x :: rest))

/-- Ranking is a permutation, whatever the relation is. -/
theorem sort_perm (before : α → α → Bool) (xs : List α) : (sort before xs).Perm xs := by
  unfold sort
  exact (collapse_perm before _ _).trans (collect_perm before _ _ xs [] _ (Nat.le_refl _))

end Credence.Ranking

namespace Credence.RuleBase

/-- Reasoning goes through the enabled rules, each as often as it was added. -/
theorem inOrder_perm (b : RuleBase) : b.inOrder.Perm (b.rules.filter Rule.enabled) := by
  unfold inOrder
  dsimp only
  split
  · exact List.mergeSort_perm _ _
  · exact Ranking.sort_perm _ _

theorem mem_inOrder {b : RuleBase} {r : Rule} :
    r ∈ b.inOrder ↔ r ∈ b.rules ∧ r.enabled = true := by
  rw [(inOrder_perm b).mem_iff, List.mem_filter]

/-- A single rule comes first and last. -/
theorem inOrder_singleton {r : Rule} (he : r.enabled = true) : inOrder ⟨[r]⟩ = [r] := by
  have hperm := inOrder_perm ⟨[r]⟩
  rw [List.filter_cons_of_pos he, List.filter_nil] at hperm
  exact List.perm_singleton.1 hperm

/-- Enabled rules that come by descending priority are gone through as they stand. -/
theorem inOrder_of_pairwise {rules : List Rule} (he : ∀ r ∈ rules, r.enabled = true)
    (hrank : ∀ r ∈ rules, r.rank.agrees r.rank = true)
    (hsorted : rules.Pairwise fun r r' => r.rank.isLess r'.rank = false) :
    inOrder ⟨rules⟩ = rules := by
  unfold inOrder
  dsimp only
  rw [List.filter_eq_self.2 he, if_pos (List.all_eq_true.2 hrank)]
  refine List.mergeSort_of_pairwise (hsorted.imp fun hless => ?_)
  rw [hless]
  rfl

end Credence.RuleBase
