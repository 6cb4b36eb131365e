import Credence.Proofs.Time.Precedence
import Mathlib.Logic.Function.Basic
/-!
# Visiting by colours

The search for a cycle as a recursion, without a stack of neighbours: a label is white
until it is visited, grey while it stands on the path, and black once all its successors
were tried. A grey successor closes a cycle, a white one is visited first and a black one
is passed over. `Sweeps` is the call tree of a visit and `Searches` that of the visits from
one label after another, so a result of them is a recursion that ends.

It does end, on every graph, with one result: that of the search along a stack. Labels
without successors make no difference, wherever they stand.
-/

namespace Credence

namespace Text

theorem atMost_iff {a b : String} : atMost a b = true ↔ a ≤ b := by
  rw [atMost, Bool.not_eq_true', decide_eq_false_iff_not, String.not_lt]

theorem pairwise_sorted (ss : List String) : (sorted ss).Pairwise (· ≤ ·) := by
  refine (List.pairwise_mergeSort (fun a b c hab hbc => ?_) (fun a b => ?_) ss).imp atMost_iff.1
  · exact atMost_iff.2 (String.le_trans (atMost_iff.1 hab) (atMost_iff.1 hbc))
  · rw [Bool.or_eq_true, atMost_iff, atMost_iff]
    exact String.le_total a b

/-- Texts in order that hold the same, without repetitions, are the same. -/
theorem eq_of_sorted {ss ts : List String} (hs : ss.Pairwise (· ≤ ·)) (ht : ts.Pairwise (· ≤ ·))
    (hs' : ss.Nodup) (ht' : ts.Nodup) (h : ∀ x, x ∈ ss ↔ x ∈ ts) : ss = ts :=
  ((List.perm_ext_iff_of_nodup hs' ht').2 h).eq_of_pairwise
    (fun _ _ _ _ => String.le_antisymm) hs ht

theorem nodup_sorted {ss : List String} (h : ss.Nodup) : (sorted ss).Nodup :=
  (List.mergeSort_perm ss atMost).nodup_iff.2 h

end Text

namespace Precedence

/-! ## The recursion -/

/-- How far a label is: not visited yet, on the path, or done. -/
inductive Colour where
  | white
  | grey
  | black
deriving DecidableEq

/-- The colour of every label, and the path of grey labels. -/
structure Marks where
  colour : String → Colour
  path : List String

namespace Marks

/-- Before the search all labels are white. -/
def fresh : Marks := ⟨fun _ => .white, []⟩

/-- A visit begins: the label goes to the end of the path. -/
def enter (m : Marks) (l : String) : Marks := ⟨Function.update m.colour l .grey, m.path ++ [l]⟩

/-- A visit is over without a cycle: the last label goes off the path. -/
def leave (m : Marks) (l : String) : Marks :=
  ⟨Function.update m.colour l .black, m.path.dropLast⟩

/-- The path from a label on. -/
def since (m : Marks) (l : String) : List String := m.path.dropWhile fun x => x ≠ l

end Marks

/-- The call tree of trying what is left of the successors of a label: the cycle that was closed, or
the marks after the visit of the label. -/
inductive Sweeps (edges : List Edge) :
    Marks → String → List String → Except (List String) Marks → Prop
  | leaves {m : Marks} {l : String} : Sweeps edges m l [] (.ok (m.leave l))
  | closes {m : Marks} {l next : String} {rest : List String} :
    m.colour next = .grey → Sweeps edges m l (next :: rest) (.error (m.since next ++ [next]))
  | passes {m : Marks} {l next : String} {rest : List String} {r : Except (List String) Marks} :
    m.colour next = .black → Sweeps edges m l rest r → Sweeps edges m l (next :: rest) r
  | finds {m : Marks} {l next : String} {rest c : List String} : m.colour next = .white →
    Sweeps edges (m.enter next) next (successors edges next) (.error c) →
    Sweeps edges m l (next :: rest) (.error c)
  | returns {m m' : Marks} {l next : String} {rest : List String}
    {r : Except (List String) Marks} : m.colour next = .white →
    Sweeps edges (m.enter next) next (successors edges next) (.ok m') →
    Sweeps edges m' l rest r → Sweeps edges m l (next :: rest) r

/-- The call tree of visiting labels one after another, those that are still white. -/
inductive Searches (edges : List Edge) : Marks → List String → Option (List String) → Prop
  | stops {m : Marks} : Searches edges m [] none
  | passes {m : Marks} {l : String} {ls : List String} {r : Option (List String)} :
    m.colour l ≠ .white → Searches edges m ls r → Searches edges m (l :: ls) r
  | finds {m : Marks} {l : String} {ls c : List String} : m.colour l = .white →
    Sweeps edges (m.enter l) l (successors edges l) (.error c) →
    Searches edges m (l :: ls) (some c)
  | returns {m m' : Marks} {l : String} {ls : List String} {r : Option (List String)} :
    m.colour l = .white → Sweeps edges (m.enter l) l (successors edges l) (.ok m') →
    Searches edges m' ls r → Searches edges m (l :: ls) r

/-- The labels of a map in order: those with successors and those without. -/
def keys (edges : List Edge) (bare : List String) : List String :=
  Text.sorted (distinct (bare ++ edges.map Prod.fst))

/-! ## One result -/

variable {edges : List Edge} {m m' : Marks} {l : String} {pending : List String}

theorem Sweeps.unique {r r' : Except (List String) Marks} (h : Sweeps edges m l pending r)
    (h' : Sweeps edges m l pending r') : r = r' := by
  induction h generalizing r' with
  | leaves => cases h'; rfl
  | closes hgrey => cases h' <;> simp_all
  | passes hblack _ ih =>
    cases h' with
    | closes hgrey => simp_all
    | passes _ hrest => exact ih hrest
    | finds hwhite => simp_all
    | returns hwhite => simp_all
  | finds hwhite _ ih =>
    cases h' with
    | closes hgrey => simp_all
    | passes hblack => simp_all
    | finds _ hvisit => exact ih hvisit
    | returns _ hvisit => cases ih hvisit
  | returns hwhite _ _ ih ihrest =>
    cases h' with
    | closes hgrey => simp_all
    | passes hblack => simp_all
    | finds _ hvisit => cases ih hvisit
    | returns _ hvisit hrest =>
      cases ih hvisit
      exact ihrest hrest

theorem Searches.unique {ls : List String} {r r' : Option (List String)}
    (h : Searches edges m ls r) (h' : Searches edges m ls r') : r = r' := by
  induction h generalizing r' with
  | stops => cases h'; rfl
  | passes hseen _ ih =>
    cases h' with
    | passes _ hrest => exact ih hrest
    | finds hwhite => exact absurd hwhite hseen
    | returns hwhite => exact absurd hwhite hseen
  | finds hwhite hvisit =>
    cases h' with
    | passes hseen => exact absurd hwhite hseen
    | finds _ hvisit' => cases hvisit.unique hvisit'; rfl
    | returns _ hvisit' => cases hvisit.unique hvisit'
  | returns hwhite hvisit _ ih =>
    cases h' with
    | passes hseen => exact absurd hwhite hseen
    | finds _ hvisit' => cases hvisit.unique hvisit'
    | returns _ hvisit' hrest =>
      cases hvisit.unique hvisit'
      exact ih hrest

/-! ## Beside the stack -/

/-- Whether colours tell what the stack and the seen labels tell: grey are the labels of the path,
and of the labels with successors those are white that were not seen. -/
structure Agrees (edges : List Edge) (m : Marks) (path : List Visit) (seen : List String) :
    Prop where
  along : m.path = labels path
  nodup : (labels path).Nodup
  grey : ∀ l, m.colour l = .grey ↔ l ∈ labels path
  white : ∀ l ∈ edges.map Prod.fst, m.colour l = .white ↔ l ∉ seen

variable {path : List Visit} {seen : List String}

theorem agrees_fresh (edges : List Edge) : Agrees edges .fresh [] [] where
  along := rfl
  nodup := List.nodup_nil
  grey l := by simp [Marks.fresh, labels]
  white l _ := by simp [Marks.fresh]

theorem Agrees.enter (h : Agrees edges m path seen) (hwhite : m.colour l = .white)
    (pending : List String) : Agrees edges (m.enter l) (⟨l, pending⟩ :: path) (l :: seen) where
  along := by
    rw [labels_cons, ← h.along]
    rfl
  nodup := by
    have hnew : l ∉ labels path := fun hl => by simp [(h.grey l).2 hl] at hwhite
    rw [labels_cons]
    refine List.nodup_append.2 ⟨h.nodup, List.nodup_singleton l, fun x hx y hy heq => ?_⟩
    rw [heq, List.mem_singleton.1 hy] at hx
    exact hnew hx
  grey x := by
    unfold Marks.enter
    by_cases hx : x = l <;> simp [hx, labels_cons, h.grey x]
  white x hx := by
    unfold Marks.enter
    by_cases hxl : x = l <;> simp [hxl, h.white x hx]

theorem Agrees.leave (h : Agrees edges m (⟨l, pending⟩ :: path) seen) :
    Agrees edges (m.leave l) path seen := by
  have hnodup := h.nodup
  rw [labels_cons] at hnodup
  have hgone : l ∉ labels path := fun hl =>
    (List.nodup_append.1 hnodup).2.2 l hl l (List.mem_singleton_self l) rfl
  have hgrey : m.colour l = .grey := (h.grey l).2 (by simp [labels_cons])
  refine ⟨?_, hnodup.of_append_left, fun x => ?_, fun x hx => ?_⟩
  · unfold Marks.leave
    rw [h.along, labels_cons, List.dropLast_concat]
  · unfold Marks.leave
    by_cases hxl : x = l
    · simp [hxl, hgone]
    · simp [hxl, h.grey x, labels_cons]
  · unfold Marks.leave
    by_cases hxl : x = l
    · have hseen : l ∈ seen := by
        by_contra hnot
        simp [(h.white l (hxl ▸ hx)).2 hnot] at hgrey
      simp [hxl, hseen]
    · simp [hxl, h.white x hx]

/-- A label without successors does not matter. -/
theorem Agrees.unlisted (h : Agrees edges m path (l :: seen)) (hl : l ∉ edges.map Prod.fst) :
    Agrees edges m path seen where
  along := h.along
  nodup := h.nodup
  grey := h.grey
  white x hx := by
    have hne : x ≠ l := fun heq => hl (heq ▸ hx)
    rw [h.white x hx, List.mem_cons, not_or]
    exact and_iff_right hne

/-- The successors of a label keep their place on the stack. -/
theorem Agrees.leaving (h : Agrees edges m (⟨l, pending⟩ :: path) seen) (rest : List String) :
    Agrees edges m (⟨l, rest⟩ :: path) seen :=
  ⟨h.along, h.nodup, h.grey, h.white⟩

theorem successors_eq_nil (hl : l ∉ edges.map Prod.fst) : successors edges l = [] := by
  refine List.eq_nil_iff_forall_not_mem.2 fun x hx => hl ?_
  exact List.mem_map.2 ⟨(l, x), mem_successors.1 hx, rfl⟩

/-- A visit of a label without successors is over at once. -/
theorem sweeps_of_not_source (hl : l ∉ edges.map Prod.fst) (m : Marks) :
    Sweeps edges m l (successors edges l) (.ok (m.leave l)) := by
  rw [successors_eq_nil hl]
  exact .leaves

theorem Agrees.visited (h : Agrees edges m path seen) (hwhite : m.colour l = .white)
    (hl : l ∉ edges.map Prod.fst) : Agrees edges ((m.enter l).leave l) path seen :=
  (h.enter hwhite []).leave.unlisted hl

/-- How a search along the stack and a visit end together: with a cycle, or with the stack below the
label and the marks after the visit. -/
def Finishes (edges : List Edge) (m : Marks) (l : String) (pending : List String)
    (below : List Visit) (seen : List String) : Prop :=
  (∃ c, follow edges (⟨l, pending⟩ :: below) seen = .error c ∧
    Sweeps edges m l pending (.error c)) ∨
  ∃ m' seen', follow edges (⟨l, pending⟩ :: below) seen = follow edges below seen' ∧
    Sweeps edges m l pending (.ok m') ∧ Agrees edges m' below seen' ∧ ∀ x ∈ seen, x ∈ seen'

section

variable {below : List Visit} {next : String} {rest : List String}

/-- Where a successor is passed over, both go on with the rest. -/
theorem Finishes.skip {m₁ : Marks} (h : Finishes edges m₁ l rest below seen)
    (hnot : next ∉ labels (⟨l, rest⟩ :: below))
    (hlisted : ¬ (next ∈ edges.map Prod.fst ∧ next ∉ seen))
    (hsweep : ∀ r, Sweeps edges m₁ l rest r → Sweeps edges m l (next :: rest) r) :
    Finishes edges m l (next :: rest) below seen := by
  have hfollow : follow edges (⟨l, next :: rest⟩ :: below) seen =
      follow edges (⟨l, rest⟩ :: below) seen := by
    rw [follow, if_neg hnot, if_neg hlisted]
  unfold Finishes
  rw [hfollow]
  rcases h with ⟨c, hc, hs⟩ | ⟨m', seen', hf, hs, ha, hsub⟩
  · exact .inl ⟨c, hc, hsweep _ hs⟩
  · exact .inr ⟨m', seen', hf, hsweep _ hs, ha, hsub⟩

/-- Where a white successor is visited, both go on with the rest if the visit closes no cycle, and
what the visit saw stays seen. -/
theorem Finishes.visit (hwhite : m.colour next = .white)
    (hnot : next ∉ labels (⟨l, rest⟩ :: below)) (hsource : next ∈ edges.map Prod.fst)
    (hunseen : next ∉ seen)
    (h : Finishes edges (m.enter next) next (successors edges next) (⟨l, rest⟩ :: below)
      (next :: seen))
    (hrest : ∀ m₁ seen₁, Agrees edges m₁ (⟨l, rest⟩ :: below) seen₁ →
      (∀ x ∈ next :: seen, x ∈ seen₁) → Finishes edges m₁ l rest below seen₁) :
    Finishes edges m l (next :: rest) below seen := by
  have hfollow : follow edges (⟨l, next :: rest⟩ :: below) seen =
      follow edges (⟨next, successors edges next⟩ :: ⟨l, rest⟩ :: below) (next :: seen) := by
    rw [follow, if_neg hnot, if_pos ⟨hsource, hunseen⟩]
  unfold Finishes
  rw [hfollow]
  rcases h with ⟨c, hc, hs⟩ | ⟨m₁, seen₁, hf, hs, ha, hsub⟩
  · exact .inl ⟨c, hc, .finds hwhite hs⟩
  · rw [hf]
    rcases hrest m₁ seen₁ ha hsub with ⟨c, hc, hs'⟩ | ⟨m', seen', hf', hs', ha', hsub'⟩
    · exact .inl ⟨c, hc, .returns hwhite hs hs'⟩
    · exact .inr ⟨m', seen', hf', .returns hwhite hs hs', ha',
        fun x hx => hsub' x (hsub x (List.mem_cons_of_mem _ hx))⟩

theorem unseen_le {seen' : List String} (h : ∀ x ∈ seen, x ∈ seen') :
    unseen edges seen' ≤ unseen edges seen := by
  refine differing_le fun x hx => ?_
  obtain ⟨hmem, hnew⟩ := List.mem_filter.1 hx
  exact List.mem_filter.2 ⟨hmem, decide_eq_true fun hold => of_decide_eq_true hnew (h x hold)⟩

/-- A search along the stack visits the label on top as the recursion does. The recursion is on the
labels that were not seen, and for each number of them on the successors that are left. -/
theorem finishes_of_agrees (h : Agrees edges m (⟨l, pending⟩ :: below) seen) :
    Finishes edges m l pending below seen := by
  induction hn : unseen edges seen using Nat.strong_induction_on
    generalizing m l pending below seen with
  | h n ih =>
    subst hn
    induction pending generalizing m with
    | nil =>
      refine .inr ⟨_, seen, ?_, .leaves, h.leave, fun x hx => hx⟩
      rw [follow]
    | cons next rest ihrest =>
      have hrest := h.leaving rest
      have hgrey : m.colour next = .grey ↔ next ∈ labels (⟨l, rest⟩ :: below) := hrest.grey next
      cases hcolour : m.colour next with
      | grey =>
        refine .inl ⟨_, ?_, .closes hcolour⟩
        rw [follow, if_pos (hgrey.1 hcolour), Marks.since, hrest.along]
      | black =>
        have hnot : next ∉ labels (⟨l, rest⟩ :: below) := fun hon => by
          simp [hgrey.2 hon] at hcolour
        refine (ihrest hrest).skip hnot (fun hnew => ?_) fun r => .passes hcolour
        simp [(h.white next hnew.1).2 hnew.2] at hcolour
      | white =>
        have hnot : next ∉ labels (⟨l, rest⟩ :: below) := fun hon => by
          simp [hgrey.2 hon] at hcolour
        by_cases hsource : next ∈ edges.map Prod.fst
        · have hunseen := (h.white next hsource).1 hcolour
          have hlt := unseen_cons_lt hsource hunseen
          exact .visit hcolour hnot hsource hunseen (ih _ hlt (hrest.enter hcolour _) rfl)
            fun m₁ seen₁ ha hsub => ih _ (Nat.lt_of_le_of_lt (unseen_le hsub) hlt) ha rfl
        · exact (ihrest (hrest.visited hcolour hsource)).skip hnot
            (fun hlisted => hsource hlisted.1)
            fun r => .returns hcolour (sweeps_of_not_source hsource _)

end

/-- Visits from one label after another find what the searches along the stack find from those of
them that have successors. -/
theorem searches_of_agrees {ls : List String} (h : Agrees edges m [] seen) :
    Searches edges m ls
      (searchFrom edges (ls.filter fun l => l ∈ edges.map Prod.fst) seen) := by
  induction ls generalizing m seen with
  | nil => exact .stops
  | cons l ls ih =>
    by_cases hsource : l ∈ edges.map Prod.fst
    · rw [List.filter_cons, if_pos (decide_eq_true hsource), searchFrom]
      by_cases hseen : l ∈ seen
      · rw [if_pos hseen]
        exact .passes (fun hwhite => (h.white l hsource).1 hwhite hseen) (ih h)
      · have hwhite := (h.white l hsource).2 hseen
        rw [if_neg hseen]
        rcases finishes_of_agrees (h.enter hwhite (successors edges l)) with
          ⟨c, hc, hs⟩ | ⟨m', seen', hf, hs, ha, -⟩
        · rw [hc]
          exact .finds hwhite hs
        · rw [hf, follow]
          exact .returns hwhite hs (ih ha)
    · rw [List.filter_cons, if_neg (by simpa using hsource)]
      cases hcolour : m.colour l with
      | white =>
        exact .returns hcolour (sweeps_of_not_source hsource _) (ih (h.visited hcolour hsource))
      | grey => exact absurd ((h.grey l).1 hcolour) (by simp [labels])
      | black => exact .passes (by simp [hcolour]) (ih h)

theorem filter_keys (edges : List Edge) (bare : List String) :
    (keys edges bare).filter (fun l => l ∈ edges.map Prod.fst) = sources edges := by
  have hnodup : (keys edges bare).Nodup := Text.nodup_sorted (nodup_distinct _)
  refine Text.eq_of_sorted ((Text.pairwise_sorted _).sublist List.filter_sublist)
    (Text.pairwise_sorted _) (hnodup.sublist List.filter_sublist)
    (Text.nodup_sorted (nodup_distinct _)) fun x => ?_
  unfold keys sources
  simp only [List.mem_filter, Text.mem_sorted, mem_distinct, List.mem_append, decide_eq_true_eq]
  exact ⟨fun hx => hx.2, fun hx => ⟨.inr hx, hx⟩⟩

/-- The recursion ends, with the cycle that is found along the stack, whatever labels without
successors there are. -/
theorem searches_iff (edges : List Edge) (bare : List String) {r : Option (List String)} :
    Searches edges .fresh (keys edges bare) r ↔ r = cycle? edges := by
  have hrun : Searches edges .fresh (keys edges bare) _ := searches_of_agrees (agrees_fresh edges)
  rw [filter_keys] at hrun
  constructor
  · exact fun h => h.unique hrun
  · rintro rfl
    exact hrun

end Precedence

end Credence
