import Credence.Proofs.Inference.Analogy
import Credence.Proofs.Number.Order
import Credence.Proofs.Ranking.Stable
import Credence.Proofs.Store.Domain
/-!
# Greedy assignment

Pairs are mapped in descending similarity where both sides are free. So the mapping is one
to one, and a pair that is similar enough but was not mapped shares a side with one that
is mapped and at least as similar, unless the bound on results was met by pairs all of
which are.

A pair that is similar enough has a similarity that is a number, and so all of these
compare, whatever the floor is.
-/

namespace Credence.Analogy

open Number

/-! ## The order of assignment -/

/-- What pairs are ordered by: the place of their similarity, from the top, then their places. -/
def Scored.key (x : Scored) (a : Int ×ₗ Int ×ₗ Int) : (Int ×ₗ Int ×ₗ Int)ᵒᵈ ×ₗ Nat ×ₗ Nat :=
  toLex (.toDual a, toLex (x.source.2, x.target.2))

theorem before_iff_key {x y : Scored} {a b : Int ×ₗ Int ×ₗ Int} (hx : placeOf x.similarity = some a)
    (hy : placeOf y.similarity = some b) : x.before y = true ↔ x.key a ≤ y.key b := by
  have hlt : ∀ {u v : Float} {c d : Int ×ₗ Int ×ₗ Int}, placeOf u = some c → placeOf v = some d →
      (u < v ↔ c < d) := by
    intro u v c d hu hv
    rw [lt_iff_placeOf]
    simp [hu, hv]
  unfold Scored.before Scored.key
  rw [Prod.Lex.le_iff, Prod.Lex.le_iff]
  simp only [gt_iff_lt, hlt hx hy, hlt hy hx, ofLex_toLex, OrderDual.toDual_lt_toDual,
    OrderDual.toDual_inj]
  rcases lt_trichotomy a b with h | rfl | h
  · simp [h, h.ne]
  · simp only [lt_self_iff_false, if_false, false_or, true_and]
    split <;> simp only [decide_eq_true_eq] <;> omega
  · simp [h, h.ne']

/-- Pairs whose similarities are numbers are put in order. -/
theorem ranked_before {xs : List Scored} (h : ∀ x ∈ xs, x.similarity ≤ x.similarity) :
    Ranked Scored.before xs (xs.mergeSort Scored.before) := by
  refine ranked_mergeSort (P := fun x => x.similarity ≤ x.similarity) ?_ ?_ h
  · intro x y z hx hy hz hxy hyz
    obtain ⟨a, -, ha, -⟩ := le_iff_placeOf.1 hx
    obtain ⟨b, -, hb, -⟩ := le_iff_placeOf.1 hy
    obtain ⟨c, -, hc, -⟩ := le_iff_placeOf.1 hz
    exact (before_iff_key ha hc).2
      (((before_iff_key ha hb).1 hxy).trans ((before_iff_key hb hc).1 hyz))
  · intro x y hx hy
    obtain ⟨a, -, ha, -⟩ := le_iff_placeOf.1 hx
    obtain ⟨b, -, hb, -⟩ := le_iff_placeOf.1 hy
    rw [before_iff_key ha hb, before_iff_key hb ha]
    exact le_total _ _

theorem similarity_le_of_before {x y : Scored} (hx : x.similarity ≤ x.similarity)
    (hy : y.similarity ≤ y.similarity) (h : x.before y = true) : y.similarity ≤ x.similarity := by
  obtain ⟨a, -, ha, -⟩ := le_iff_placeOf.1 hx
  obtain ⟨b, -, hb, -⟩ := le_iff_placeOf.1 hy
  have hkey := (before_iff_key ha hb).1 h
  unfold Scored.key at hkey
  refine le_iff_placeOf.2 ⟨b, a, hb, ha, ?_⟩
  rcases Prod.Lex.le_iff.1 hkey with hlt | ⟨heq, -⟩
  · exact (OrderDual.toDual_lt_toDual.1 hlt).le
  · exact (OrderDual.toDual_inj.1 heq).ge

/-! ## Taking free pairs -/

/-- The pair that is mapped. -/
def Scored.mapped (params : Params) (x : Scored) : Mapped :=
  ⟨x.source.1, x.target.1, x.similarity, x.similarity *
    min (confidenceOf params.useUncertainty x.source.1)
      (confidenceOf params.useUncertainty x.target.1)⟩

/-- Whether two pairs share a side. -/
def Scored.Meets (x y : Scored) : Prop := x.source.2 = y.source.2 ∨ x.target.2 = y.target.2

/-- What pairs are picked from a list, some places being used and some pairs mapped: pairs that are
free and do not meet, so many that the bound allows. What is not picked is used, or meets what was
picked before it, or was left out because the bound was met before. -/
structure Picks (params : Params) (xs : List Scored) (usedS usedT : List Nat) (done : Nat)
    (picked : List Scored) (capped : Bool) : Prop where
  sublist : picked.Sublist xs
  apart : picked.Pairwise fun x y => ¬ x.Meets y
  free : ∀ x ∈ picked, x.source.2 ∉ usedS ∧ x.target.2 ∉ usedT
  settled : ∀ x ∈ xs, x ∈ picked ∨ (x.source.2 ∈ usedS ∨ x.target.2 ∈ usedT) ∨
    (∃ y ∈ picked, [y, x].Sublist xs ∧ y.Meets x) ∨
    capped = true ∧ done + picked.length = params.maxResults ∧ ∀ y ∈ picked, [y, x].Sublist xs

variable {params : Params} {x : Scored} {xs : List Scored} {usedS usedT : List Nat} {done : Nat}
  {picked : List Scored} {capped : Bool}

theorem picks_nil : Picks params [] usedS usedT done [] capped where
  sublist := .slnil
  apart := .nil
  free := List.forall_mem_nil _
  settled := List.forall_mem_nil _

/-- Where the bound is met, nothing is picked. -/
theorem picks_full (hfull : done = params.maxResults) :
    Picks params xs usedS usedT done [] true where
  sublist := List.nil_sublist xs
  apart := .nil
  free := List.forall_mem_nil _
  settled _ _ := .inr (.inr (.inr ⟨rfl, hfull, List.forall_mem_nil _⟩))

/-- A pair that is not free is passed over. -/
theorem Picks.skip (h : Picks params xs usedS usedT done picked capped)
    (hused : x.source.2 ∈ usedS ∨ x.target.2 ∈ usedT) :
    Picks params (x :: xs) usedS usedT done picked capped where
  sublist := h.sublist.cons x
  apart := h.apart
  free := h.free
  settled := by
    refine List.forall_mem_cons.2 ⟨.inr (.inl hused), fun y hy => ?_⟩
    rcases h.settled y hy with hpicked | hold | ⟨z, hz, hsub, hmeets⟩ | ⟨hcap, hlen, hsub⟩
    · exact .inl hpicked
    · exact .inr (.inl hold)
    · exact .inr (.inr (.inl ⟨z, hz, hsub.cons x, hmeets⟩))
    · exact .inr (.inr (.inr ⟨hcap, hlen, fun z hz => (hsub z hz).cons x⟩))

/-- A free pair is picked, and both its places are used. -/
theorem Picks.take (h : Picks params xs (x.source.2 :: usedS) (x.target.2 :: usedT) (done + 1)
      picked capped) (hS : x.source.2 ∉ usedS) (hT : x.target.2 ∉ usedT) :
    Picks params (x :: xs) usedS usedT done (x :: picked) capped where
  sublist := h.sublist.cons_cons x
  apart := by
    refine List.pairwise_cons.2 ⟨fun y hy hmeets => ?_, h.apart⟩
    obtain ⟨hyS, hyT⟩ := h.free y hy
    rcases hmeets with hmeets | hmeets
    · exact hyS (hmeets ▸ List.mem_cons_self ..)
    · exact hyT (hmeets ▸ List.mem_cons_self ..)
  free := by
    refine List.forall_mem_cons.2 ⟨⟨hS, hT⟩, fun y hy => ?_⟩
    obtain ⟨hyS, hyT⟩ := h.free y hy
    exact ⟨fun hmem => hyS (List.mem_cons_of_mem _ hmem),
      fun hmem => hyT (List.mem_cons_of_mem _ hmem)⟩
  settled := by
    have hfirst : ∀ y ∈ xs, [x, y].Sublist (x :: xs) := fun y hy =>
      (List.singleton_sublist.2 hy).cons_cons x
    refine List.forall_mem_cons.2 ⟨.inl (List.mem_cons_self ..), fun y hy => ?_⟩
    rcases h.settled y hy with hpicked | hold | ⟨z, hz, hsub, hmeets⟩ | ⟨hcap, hlen, hsub⟩
    · exact .inl (List.mem_cons_of_mem _ hpicked)
    · rcases hold with hold | hold <;> rcases List.mem_cons.1 hold with heq | hold
      · exact .inr (.inr (.inl ⟨x, List.mem_cons_self .., hfirst y hy, .inl heq.symm⟩))
      · exact .inr (.inl (.inl hold))
      · exact .inr (.inr (.inl ⟨x, List.mem_cons_self .., hfirst y hy, .inr heq.symm⟩))
      · exact .inr (.inl (.inr hold))
    · exact .inr (.inr (.inl ⟨z, List.mem_cons_of_mem _ hz, hsub.cons x, hmeets⟩))
    · refine .inr (.inr (.inr ⟨hcap, by rw [List.length_cons]; omega, ?_⟩))
      exact List.forall_mem_cons.2 ⟨hfirst y hy, fun z hz => (hsub z hz).cons x⟩

/-- The mapped pairs are those before and what is picked. -/
theorem picks_assign (params : Params) (xs : List Scored) (usedS usedT : List Nat)
    {done : List Mapped} (hdone : done.length ≤ params.maxResults) :
    ∃ picked, Picks params xs usedS usedT done.length picked (assign params xs usedS usedT done).2 ∧
      (assign params xs usedS usedT done).1 = done ++ picked.map (Scored.mapped params) := by
  induction xs generalizing usedS usedT done with
  | nil => exact ⟨[], picks_nil, (List.append_nil done).symm⟩
  | cons x xs ih =>
    unfold assign
    by_cases hused : (usedS.contains x.source.2 || usedT.contains x.target.2) = true
    · rw [if_pos hused]
      obtain ⟨picked, hpicks, hms⟩ := ih usedS usedT hdone
      exact ⟨picked, hpicks.skip (by simpa using hused), hms⟩
    · rw [if_neg hused]
      by_cases hfull : done.length ≥ params.maxResults
      · rw [if_pos hfull]
        exact ⟨[], picks_full (Nat.le_antisymm hdone hfull), (List.append_nil done).symm⟩
      · rw [if_neg hfull]
        have hfree : x.source.2 ∉ usedS ∧ x.target.2 ∉ usedT := by simpa using hused
        have hroom : (done ++ [x.mapped params]).length ≤ params.maxResults := by
          rw [List.length_append, List.length_singleton]
          omega
        obtain ⟨picked, hpicks, hms⟩ := ih (x.source.2 :: usedS) (x.target.2 :: usedT) hroom
        rw [List.length_append, List.length_singleton] at hpicks
        refine ⟨x :: picked, hpicks.take hfree.1 hfree.2, hms.trans ?_⟩
        rw [List.append_assoc, List.map_cons]
        rfl

/-! ## The pairs that are compared -/

theorem ids_zipIdx (as : List Atom) : as.zipIdx.map (fun p => p.1.id) = as.map Atom.id := by
  rw [show (fun p : Atom × Nat => p.1.id) = Atom.id ∘ Prod.fst from rfl, ← List.map_map,
    List.zipIdx_map_fst]

/-- In lists without repetitions, places are as good as identifiers. -/
theorem place_inj {as : List Atom} (h : (as.map Atom.id).Nodup) {x y : Atom × Nat}
    (hx : x ∈ as.zipIdx) (hy : y ∈ as.zipIdx) : x.2 = y.2 ↔ x.1.id = y.1.id := by
  rw [List.mem_zipIdx_iff_getElem?] at hx hy
  constructor
  · intro heq
    rw [← heq, hx] at hy
    exact congrArg Atom.id (Option.some.inj hy)
  · intro heq
    have hlt : x.2 < (as.map Atom.id).length := by
      rw [List.length_map]
      exact (List.getElem?_eq_some_iff.1 hx).1
    refine (List.getElem?_inj hlt h).1 ?_
    rw [List.getElem?_map, List.getElem?_map, hx, hy]
    exact congrArg some heq

theorem compared_ids (params : Params) (sources targets : List Atom) :
    (compared params sources targets).1.map (fun p => (p.1.1.id, p.2.1.id)) =
      ((sources.map Atom.id).product (targets.map Atom.id)).take params.maxSteps := by
  unfold compared pairs List.product
  rw [List.map_take, List.map_flatMap, ← ids_zipIdx sources, ← ids_zipIdx targets, List.flatMap_map]
  simp only [List.map_map]
  rfl

theorem mem_pairs {sources targets : List Atom} {p : (Atom × Nat) × (Atom × Nat)} :
    p ∈ pairs sources targets ↔ p.1 ∈ sources.zipIdx ∧ p.2 ∈ targets.zipIdx := by
  unfold pairs
  simp only [List.mem_flatMap, List.mem_map]
  constructor
  · rintro ⟨a, ha, b, hb, rfl⟩
    exact ⟨ha, hb⟩
  · rintro ⟨ha, hb⟩
    exact ⟨p.1, ha, p.2, hb, rfl⟩

theorem mem_similarPairs {s : Store} {floor : Float} {tried : List ((Atom × Nat) × (Atom × Nat))}
    {x : Scored} : x ∈ similarPairs s floor tried ↔ (x.source, x.target) ∈ tried ∧
      x.similarity = similarity s x.source.1 x.target.1 ∧ floor ≤ x.similarity := by
  unfold similarPairs
  simp only [List.mem_filter, List.mem_map, decide_eq_true_eq]
  constructor
  · rintro ⟨⟨p, hp, rfl⟩, hfloor⟩
    exact ⟨hp, rfl, hfloor⟩
  · rintro ⟨hp, hsim, hfloor⟩
    refine ⟨⟨(x.source, x.target), hp, ?_⟩, hfloor⟩
    rw [← hsim]

/-- A pair of stored atoms that was compared and is similar enough stands in the list. -/
theorem exists_similarPair {s : Store} {params : Params} {floor : Float} {sources targets : List Atom}
    (hstored : ∀ a, a ∈ sources ∨ a ∈ targets → s.get? a.id = some a) {p : AtomId × AtomId}
    (hp : p ∈ ((sources.map Atom.id).product (targets.map Atom.id)).take params.maxSteps) {a b : Atom}
    (ha : s.get? p.1 = some a) (hb : s.get? p.2 = some b) (hfloor : floor ≤ similarity s a b) :
    ∃ x ∈ similarPairs s floor (compared params sources targets).1,
      p = (x.source.1.id, x.target.1.id) ∧ x.source.1 = a ∧ x.target.1 = b := by
  rw [← compared_ids] at hp
  obtain ⟨q, hq, rfl⟩ := List.mem_map.1 hp
  obtain ⟨hu, hv⟩ := mem_pairs.1 (List.mem_of_mem_take hq)
  have hqa := Option.some.inj ((hstored _ (.inl (List.fst_mem_of_mem_zipIdx hu))).symm.trans ha)
  have hqb := Option.some.inj ((hstored _ (.inr (List.fst_mem_of_mem_zipIdx hv))).symm.trans hb)
  refine ⟨⟨similarity s a b, q.1, q.2⟩, mem_similarPairs.2 ⟨hq, ?_, hfloor⟩, rfl, hqa, hqb⟩
  dsimp only
  rw [hqa, hqb]

/-! ## Stability -/

/-- A mapping of some pairs of atoms, one to one and the most similar first, that leaves out no pair
which is more similar than what stands in its way. -/
structure Stable (s : Store) (params : Params) (floor : Float) (tried : List (AtomId × AtomId))
    (ms : List Mapped) (bound : Bool) : Prop where
  stored : ∀ m ∈ ms, s.get? m.source.id = some m.source ∧ s.get? m.target.id = some m.target
  compared : ∀ m ∈ ms, (m.source.id, m.target.id) ∈ tried
  similar : ∀ m ∈ ms, m.similarity = similarity s m.source m.target ∧ floor ≤ m.similarity
  sources : (ms.map fun m => m.source.id).Nodup
  targets : (ms.map fun m => m.target.id).Nodup
  descending : ms.Pairwise fun m m' => m'.similarity ≤ m.similarity
  unblocked : ∀ p ∈ tried, ∀ a b, s.get? p.1 = some a → s.get? p.2 = some b →
    floor ≤ similarity s a b → (∀ m ∈ ms, (m.source.id, m.target.id) ≠ p) →
    (∃ m ∈ ms, (m.source.id = p.1 ∨ m.target.id = p.2) ∧ similarity s a b ≤ m.similarity) ∨
    ms.length = params.maxResults ∧ (∀ m ∈ ms, similarity s a b ≤ m.similarity) ∧ bound = true

/-- What is picked from the pairs of two domains in order of similarity is stable. -/
theorem stable_of_picks {s : Store} {params : Params} {floor : Float} {sources targets : List Atom}
    (hsources : (sources.map Atom.id).Nodup) (htargets : (targets.map Atom.id).Nodup)
    (hstored : ∀ a, a ∈ sources ∨ a ∈ targets → s.get? a.id = some a)
    {xs picked : List Scored} {capped bound : Bool} (hbound : capped = true → bound = true)
    (hxs : Ranked Scored.before (similarPairs s floor (compared params sources targets).1) xs)
    (h : Picks params xs [] [] 0 picked capped) :
    Stable s params floor
      (((sources.map Atom.id).product (targets.map Atom.id)).take params.maxSteps)
      (picked.map (Scored.mapped params)) bound := by
  have hsound : ∀ x ∈ xs, (x.source, x.target) ∈ (compared params sources targets).1 ∧
      x.similarity = similarity s x.source.1 x.target.1 ∧ floor ≤ x.similarity :=
    fun x hx => mem_similarPairs.1 (hxs.perm.mem_iff.1 hx)
  have hplaces : ∀ x ∈ xs, x.source ∈ sources.zipIdx ∧ x.target ∈ targets.zipIdx :=
    fun x hx => mem_pairs.1 (List.mem_of_mem_take (hsound x hx).1)
  have hbelow : ∀ x y, [x, y].Sublist xs → y.similarity ≤ x.similarity := by
    intro x y hsub
    have hmem : x ∈ xs ∧ y ∈ xs := by simpa using hsub.subset
    have hbefore := (hxs.pairwise.sublist hsub)
    exact similarity_le_of_before (double_le_self_right (hsound x hmem.1).2.2)
      (double_le_self_right (hsound y hmem.2).2.2) (by simpa using hbefore)
  have hmem : ∀ x ∈ picked, x ∈ xs := fun x hx => h.sublist.subset hx
  have hmapped : ∀ {P : Mapped → Prop}, (∀ x ∈ picked, P (x.mapped params)) →
      ∀ m ∈ picked.map (Scored.mapped params), P m := fun hP => List.forall_mem_map.2 hP
  refine ⟨hmapped fun x hx => ?_, hmapped fun x hx => ?_, hmapped fun x hx => ?_, ?_, ?_, ?_, ?_⟩
  · obtain ⟨hs, ht⟩ := hplaces x (hmem x hx)
    exact ⟨hstored _ (.inl (List.fst_mem_of_mem_zipIdx hs)),
      hstored _ (.inr (List.fst_mem_of_mem_zipIdx ht))⟩
  · rw [← compared_ids]
    exact List.mem_map_of_mem (f := fun p => (p.1.1.id, p.2.1.id)) (hsound x (hmem x hx)).1
  · exact (hsound x (hmem x hx)).2
  · rw [List.map_map]
    refine List.pairwise_map.2 (h.apart.imp_of_mem fun {x y} hx hy hapart heq => hapart (.inl ?_))
    exact (place_inj hsources (hplaces x (hmem x hx)).1 (hplaces y (hmem y hy)).1).2 heq
  · rw [List.map_map]
    refine List.pairwise_map.2 (h.apart.imp_of_mem fun {x y} hx hy hapart heq => hapart (.inr ?_))
    exact (place_inj htargets (hplaces x (hmem x hx)).2 (hplaces y (hmem y hy)).2).2 heq
  · refine List.pairwise_map.2 (List.pairwise_iff_forall_sublist.2 fun {x y} hsub => ?_)
    exact hbelow x y (hsub.trans h.sublist)
  · intro p hp a b ha hb hfloor hout
    obtain ⟨x, hsimilar, rfl, rfl, rfl⟩ := exists_similarPair hstored hp ha hb hfloor
    have hx : x ∈ xs := hxs.perm.mem_iff.2 hsimilar
    obtain ⟨hxs, hxt⟩ := hplaces x hx
    rw [← (hsound x hx).2.1]
    rcases h.settled x hx with hpicked | hused | ⟨y, hy, hsub, hmeets⟩ | ⟨hcap, hlen, hsub⟩
    · exact absurd rfl (hout _ (List.mem_map_of_mem hpicked))
    · simp at hused
    · refine .inl ⟨y.mapped params, List.mem_map_of_mem hy, ?_, hbelow y x hsub⟩
      obtain ⟨hys, hyt⟩ := hplaces y (hmem y hy)
      exact hmeets.imp (place_inj hsources hys hxs).1 (place_inj htargets hyt hxt).1
    · refine .inr ⟨?_, hmapped fun y hy => hbelow y x (hsub y hy), hbound hcap⟩
      rw [List.length_map]
      omega

/-- The pairs of two domains that are mapped; the flag tells that the bound left one out. -/
def mapping (s : Store) (params : Params) (floor : Float) (sources targets : List Atom) :
    List Mapped × Bool :=
  assign params ((similarPairs s floor (compared params sources targets).1).mergeSort
    Scored.before) [] [] []

theorem stable_mapping {s : Store} (params : Params) (floor : Float) {sources targets : List Atom}
    (hsources : (sources.map Atom.id).Nodup) (htargets : (targets.map Atom.id).Nodup)
    (hstored : ∀ a, a ∈ sources ∨ a ∈ targets → s.get? a.id = some a) {bound : Bool}
    (hbound : (mapping s params floor sources targets).2 = true → bound = true) :
    Stable s params floor
      (((sources.map Atom.id).product (targets.map Atom.id)).take params.maxSteps)
      (mapping s params floor sources targets).1 bound := by
  have hnumber : ∀ x ∈ similarPairs s floor (compared params sources targets).1,
      x.similarity ≤ x.similarity := fun x hx => double_le_self_right (mem_similarPairs.1 hx).2.2
  obtain ⟨picked, hpicks, hms⟩ := picks_assign params
    ((similarPairs s floor (compared params sources targets).1).mergeSort Scored.before) [] []
    (show ([] : List Mapped).length ≤ params.maxResults from Nat.zero_le _)
  unfold mapping at hbound ⊢
  rw [hms]
  exact stable_of_picks hsources htargets hstored hbound (ranked_before hnumber) hpicks

theorem answer_eq (s : Store) (params : Params) (floor : Float) (sources targets : List Atom)
    (texts texts' : List String) : answer s params floor sources targets texts texts' = (do
      let analogies ← (mapping s params floor sources targets).1.mapM (mappedValue s)
      let predictions ← project s params
        (correspondences s (mapping s params floor sources targets).1) sources []
      return ⟨⟨(compared params sources targets).2 || (mapping s params floor sources targets).2,
          false, (compared params sources targets).1.length⟩, texts, texts', analogies, predictions,
        if (mapping s params floor sources targets).1.isEmpty then 0.0
        else mean ((mapping s params floor sources targets).1.map Mapped.similarity)⟩) := rfl

/-- What an answer reports of the mapping and what follows from it. -/
theorem report_of_answer {s : Store} {params : Params} {floor : Float} {sources targets : List Atom}
    {texts texts' : List String} {r : Result}
    (h : answer s params floor sources targets texts texts' = .ok r) :
    r.outcome = ⟨(compared params sources targets).2 || (mapping s params floor sources targets).2,
        false, (compared params sources targets).1.length⟩ ∧
      (mapping s params floor sources targets).1.mapM (mappedValue s) = .ok r.analogies ∧
      project s params (correspondences s (mapping s params floor sources targets).1) sources [] =
        .ok r.predictions := by
  rw [answer_eq] at h
  obtain ⟨analogies, hanalogies, h⟩ := bind_eq_ok h
  obtain ⟨predictions, hpredictions, h⟩ := bind_eq_ok h
  cases h
  exact ⟨rfl, hanalogies, hpredictions⟩

/-- The pairs compared are the first pairs of the two domains, and a stable mapping is made of
them. -/
theorem reason_stable {s : Store} {source target : List Value} {params : Params} {floor : Float}
    {r : Result} (h : (do
      let sources ← s.domain source
      let targets ← s.domain target
      reason s sources targets params floor) = .ok r) :
    ∃ ids ids' ms, source.mapM s.resolve = .ok ids ∧ target.mapM s.resolve = .ok ids' ∧
      ms.mapM (mappedValue s) = .ok r.analogies ∧
      let tried := ((distinct ids).product (distinct ids')).take params.maxSteps
      r.outcome.stepsTaken = tried.length ∧
        Stable s params floor tried ms r.outcome.boundReached := by
  obtain ⟨sources, hsources, h⟩ := bind_eq_ok h
  obtain ⟨targets, htargets, h⟩ := bind_eq_ok h
  obtain ⟨ids, hids, rfl⟩ := Store.exists_of_domain hsources
  obtain ⟨ids', hids', rfl⟩ := Store.exists_of_domain htargets
  rw [reason_eq] at h
  obtain ⟨texts, -, h⟩ := bind_eq_ok h
  obtain ⟨texts', -, h⟩ := bind_eq_ok h
  obtain ⟨houtcome, hanalogies, -⟩ := report_of_answer h
  have hatoms := Store.map_id_of_domain hsources
  have hatoms' := Store.map_id_of_domain htargets
  have hbound : (mapping s params floor ((distinct ids).filterMap s.get?)
      ((distinct ids').filterMap s.get?)).2 = true → r.outcome.boundReached = true := fun hcap => by
    rw [houtcome, hcap]
    exact Bool.or_true _
  have hstable := stable_mapping params floor (by rw [hatoms]; exact nodup_distinct ids)
    (by rw [hatoms']; exact nodup_distinct ids')
    (fun a ha => ha.elim Store.get?_of_mem_filterMap Store.get?_of_mem_filterMap) hbound
  have hlen := congrArg List.length (compared_ids params ((distinct ids).filterMap s.get?)
    ((distinct ids').filterMap s.get?))
  rw [List.length_map] at hlen
  rw [hatoms, hatoms'] at hstable hlen
  exact ⟨ids, ids', _, hids, hids', hanalogies, by rw [houtcome]; exact hlen, hstable⟩

/-! ### More pairs than results -/

namespace Crowded

/-- A store with three things and rows that hold the first and the third. -/
def store : Store :=
  ((do
    let a ← Store.addNode .concept "a" .default
    let _ ← Store.addNode .concept "b" .default
    let c ← Store.addNode .concept "c" .default
    let _ ← Store.addLink .list [a] .default
    discard <| Store.addLink .list [c] .default : StoreM Unit).run.run .empty).2

/-- The usual parameters with ten steps and one result. -/
def single : Params := { Params.default with maxSteps := 10, maxResults := 1 }

/-- The first two things, the first one named twice, compared with the last two. -/
def analogy : Except Error Result := do
  let sources ← store.domain [.int 1, .int 2, .int 1]
  let targets ← store.domain [.int 3, .int 2]
  reason store sources targets single 0.25

theorem exists_analogy : ∃ r, analogy = .ok r ∧ r.outcome = ⟨true, false, 4⟩ := by
  have hsources : store.domain [.int 1, .int 2, .int 1] = .ok [1, 2] :=
    ok_of_toOption (by decide +kernel)
  have htargets : store.domain [.int 3, .int 2] = .ok [3, 2] := ok_of_toOption (by decide +kernel)
  -- The first pair is the most similar one, and the others are level.
  have hsorted : (similarPairs store 0.25 (compared single ([1, 2].filterMap store.get?)
      ([3, 2].filterMap store.get?)).1).Pairwise fun x y => x.before y = true := by decide +kernel
  have hmapping : mapping store single 0.25 ([1, 2].filterMap store.get?)
      ([3, 2].filterMap store.get?) = assign single (similarPairs store 0.25 (compared single
        ([1, 2].filterMap store.get?) ([3, 2].filterMap store.get?)).1) [] [] [] :=
    congrArg (assign single · [] [] []) (List.mergeSort_of_pairwise hsorted)
  have hrun : (reason store [1, 2] [3, 2] single 0.25).toOption.map Result.outcome =
      some ⟨true, false, 4⟩ := by
    simp only [reason_eq, answer_eq, hmapping]
    decide +kernel
  unfold analogy
  rw [hsources, htargets]
  exact exists_of_map_toOption hrun

end Crowded

open Crowded in
theorem reason_stable_crowded : ∃ r, analogy = .ok r ∧ r.outcome = ⟨true, false, 4⟩ ∧
    ∃ ids ids' ms, ms.mapM (mappedValue store) = .ok r.analogies ∧
      Stable store single 0.25
        (((distinct ids).product (distinct ids')).take 10) ms true := by
  obtain ⟨r, hr, houtcome⟩ := exists_analogy
  obtain ⟨ids, ids', ms, -, -, hms, -, hstable⟩ := reason_stable hr
  rw [houtcome] at hstable
  exact ⟨r, hr, houtcome, ids, ids', ms, hms, hstable⟩

end Credence.Analogy
