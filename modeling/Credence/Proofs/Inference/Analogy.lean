import Credence.Inference.Analogy
import Credence.Proofs.Store.Alike
/-!
# Analogies where confidences do not count

Reasoning by analogy carries whole atoms along, from the pairs it compares to the pairs
it maps and the predictions it makes of them. Without uncertainty nothing of this
depends on their truth values: taking the truth values off the atoms of both domains
beforehand makes no difference, and what is left is the same for twins.
-/

namespace Credence

/-- An atom with the usual truth value in place of its own. -/
def Atom.bare (a : Atom) : Atom := { a with truth := .default }

theorem Atom.bare_of_shown {α : Type} {part : Truth → α} {a a' : Atom}
    (h : a'.shown part = a.shown part) : a'.bare = a.bare :=
  congrArg (fun e => Atom.mk e.1.1 e.1.2 .default e.2.1) h

namespace Analogy

open Store

/-- A pair of atoms without their truth values. -/
def Scored.bare (x : Scored) : Scored :=
  ⟨x.similarity, (x.source.1.bare, x.source.2), (x.target.1.bare, x.target.2)⟩

/-- Two atoms with their places, without their truth values. -/
def barePair (p : (Atom × Nat) × (Atom × Nat)) : (Atom × Nat) × (Atom × Nat) :=
  ((p.1.1.bare, p.1.2), (p.2.1.bare, p.2.2))

/-- A mapped pair of atoms without their truth values. -/
def Mapped.bare (m : Mapped) : Mapped :=
  ⟨m.source.bare, m.target.bare, m.similarity, m.confidence⟩

/-- The pairs that are similar enough. -/
def similarPairs (s : Store) (floor : Float) (tried : List ((Atom × Nat) × (Atom × Nat))) :
    List Scored :=
  (tried.map fun p => Scored.mk (similarity s p.1.1 p.2.1) p.1 p.2).filter
    fun x => x.similarity ≥ floor

/-- What comes of two domains, given the texts of their atoms. -/
def answer (s : Store) (params : Params) (floor : Float) (sources targets : List Atom)
    (sourceTexts targetTexts : List String) : Except Error Result := do
  let (tried, cut) := compared params sources targets
  let (mapped, capped) :=
    assign params ((similarPairs s floor tried).mergeSort Scored.before) [] [] []
  let analogies ← mapped.mapM (mappedValue s)
  let predictions ← project s params (correspondences s mapped) sources []
  let overall := if mapped.isEmpty then 0.0 else Number.mean (mapped.map Mapped.similarity)
  return ⟨⟨cut || capped, false, tried.length⟩, sourceTexts, targetTexts, analogies, predictions,
    overall⟩

theorem reason_eq (s : Store) (source target : List AtomId) (params : Params) (floor : Float) :
    reason s source target params floor = (do
      let sourceTexts ← s.toTexts source
      let targetTexts ← s.toTexts target
      answer s params floor (source.filterMap s.get?) (target.filterMap s.get?) sourceTexts
        targetTexts) := rfl

/-! ## Without truth values -/

section

variable {s : Store} {params : Params} (hu : params.useUncertainty = false)

theorem compared_bare (sources targets : List Atom) :
    compared params (sources.map Atom.bare) (targets.map Atom.bare) =
      ((compared params sources targets).1.map barePair, (compared params sources targets).2) := by
  have hpairs : pairs (sources.map Atom.bare) (targets.map Atom.bare) =
      (pairs sources targets).map barePair := by
    unfold pairs
    rw [List.zipIdx_map, List.zipIdx_map, List.flatMap_map, List.map_flatMap]
    simp only [List.map_map]
    rfl
  unfold compared
  rw [hpairs]
  simp only [List.map_take, List.length_map]

theorem similarPairs_bare (floor : Float) (ps : List ((Atom × Nat) × (Atom × Nat))) :
    similarPairs s floor (ps.map barePair) = (similarPairs s floor ps).map Scored.bare := by
  unfold similarPairs
  rw [List.map_map, List.filter_map, List.filter_map, List.map_map]
  rfl

theorem mergeSort_bare (xs : List Scored) :
    (xs.map Scored.bare).mergeSort Scored.before = (xs.mergeSort Scored.before).map Scored.bare :=
  (List.map_mergeSort (r := Scored.before) (f := Scored.bare) fun _ _ _ _ => rfl).symm

include hu in
theorem assign_bare (xs : List Scored) (usedS usedT : List Nat) (done : List Mapped) :
    assign params (xs.map Scored.bare) usedS usedT (done.map Mapped.bare) =
      ((assign params xs usedS usedT done).1.map Mapped.bare,
        (assign params xs usedS usedT done).2) := by
  induction xs generalizing usedS usedT done with
  | nil => rfl
  | cons x xs ih =>
    -- A pair counts with its similarity alone, with truth values and without.
    have hdone : (done ++ [Mapped.mk x.source.1 x.target.1 x.similarity (x.similarity *
        min (confidenceOf params.useUncertainty x.source.1)
          (confidenceOf params.useUncertainty x.target.1))]).map Mapped.bare =
        done.map Mapped.bare ++ [Mapped.mk x.source.1.bare x.target.1.bare x.similarity
          (x.similarity * min (confidenceOf params.useUncertainty x.source.1.bare)
            (confidenceOf params.useUncertainty x.target.1.bare))] := by
      rw [hu, List.map_append]
      rfl
    rw [List.map_cons]
    unfold assign
    by_cases hused : (usedS.contains x.source.2 || usedT.contains x.target.2) = true
    · rw [if_pos (show (usedS.contains x.bare.source.2 || usedT.contains x.bare.target.2) = true
        from hused), if_pos hused]
      exact ih usedS usedT done
    · rw [if_neg (show ¬ (usedS.contains x.bare.source.2 || usedT.contains x.bare.target.2) = true
        from hused), if_neg hused, List.length_map]
      by_cases hfull : done.length ≥ params.maxResults
      · rw [if_pos hfull, if_pos hfull]
      · rw [if_neg hfull, if_neg hfull]
        exact (congrArg (assign params _ _ _) hdone.symm).trans (ih _ _ _)

theorem correspondences_bare (ms : List Mapped) :
    correspondences s (ms.map Mapped.bare) = correspondences s ms := by
  unfold correspondences
  rw [List.foldl_map, List.foldl_map]
  rfl

include hu in
theorem project_bare (map : Table AtomId (AtomId × Float)) (as : List Atom)
    (done : List Prediction) :
    project s params map (as.map Atom.bare) done = project s params map as done := by
  induction as generalizing done with
  | nil => rfl
  | cons a as ih =>
    have hcounts : confidenceOf params.useUncertainty a.bare =
        confidenceOf params.useUncertainty a := by rw [hu]; rfl
    rw [List.map_cons]
    unfold project
    simp only [ih, hcounts]
    rfl

include hu in
/-- The truth values of the domains make no difference. -/
theorem answer_bare (floor : Float) (sources targets : List Atom) (texts texts' : List String) :
    answer s params floor (sources.map Atom.bare) (targets.map Atom.bare) texts texts' =
      answer s params floor sources targets texts texts' := by
  have hassign := assign_bare hu
    ((similarPairs s floor (compared params sources targets).1).mergeSort Scored.before) [] [] []
  rw [List.map_nil] at hassign
  unfold answer
  rw [compared_bare]
  dsimp only
  rw [similarPairs_bare, mergeSort_bare, hassign]
  dsimp only
  rw [List.mapM_map, correspondences_bare, project_bare hu, List.isEmpty_map, List.map_map,
    List.length_map]
  rfl

end

/-! ## Over stores that answer alike -/

section

variable {s s' : Store} {params : Params} (h : s.Alike s')
include h

theorem agreeing_congr : agreeing s' = agreeing s := by
  funext out out'
  unfold agreeing
  refine List.countP_congr fun p _ => ?_
  have hkind : ∀ id, (s'.get? id).map Atom.kind = (s.get? id).map Atom.kind := by
    intro id
    have hform := congrArg (Option.map Form.kind) (h.form id)
    rwa [Option.map_map, Option.map_map] at hform
  rw [hkind, hkind]

theorem carry_congr (map : Table AtomId (AtomId × Float)) (refs : List AtomId) :
    carry s' map refs = carry s map refs := by
  induction refs with
  | nil => rfl
  | cons ref refs ih =>
    unfold carry
    rw [ih, h.form]

theorem correspondences_congr : correspondences s' = correspondences s := by
  funext ms
  unfold correspondences
  simp only [h.form]

theorem mappedValue_congr : mappedValue s' = mappedValue s := by
  funext m
  unfold mappedValue elements
  rw [h.toText]

theorem similarity_congr : similarity s' = similarity s := by
  funext a b
  unfold similarity signature
  simp only [agreeing_congr h, h.linksOver, h.form]

theorem project_congr (map : Table AtomId (AtomId × Float)) (as : List Atom)
    (done : List Prediction) : project s' params map as done = project s params map as done := by
  induction as generalizing done with
  | nil => rfl
  | cons a as ih =>
    unfold project
    simp only [ih, carry_congr h, h.findLink, h.toPattern, h.toText]

/-- What comes of two domains depends on the answers to questions. -/
theorem answer_congr (floor : Float) (sources targets : List Atom) (texts texts' : List String) :
    answer s' params floor sources targets texts texts' =
      answer s params floor sources targets texts texts' := by
  unfold answer similarPairs
  rw [similarity_congr h, mappedValue_congr h, correspondences_congr h]
  simp only [project_congr h]

theorem reason_congr (hget : s'.get? = s.get?) (source target : List AtomId) (floor : Float) :
    reason s' source target params floor = reason s source target params floor := by
  rw [reason_eq, reason_eq, h.toTexts, hget]
  simp only [answer_congr h]

end

/-! ## Over twins -/

section

variable {α : Type} {part : Truth → α} {s s' : Store} {params : Params} (h : Twin part s s')
include h

theorem bare_twin (ids : List AtomId) :
    (ids.filterMap s'.get?).map Atom.bare = (ids.filterMap s.get?).map Atom.bare := by
  rw [List.map_filterMap, List.map_filterMap]
  refine List.filterMap_congr fun id _ => ?_
  rcases h.get?_cases id with ⟨ha, ha'⟩ | ⟨a, a', ha, ha', hshown⟩
  · rw [ha, ha']
  · rw [ha, ha']
    exact congrArg some (Atom.bare_of_shown hshown)

/-- Reasoning by analogy gives the same answer over twins. -/
theorem reason_twin (hs : s.Inv) (hs' : s'.Inv) (hu : params.useUncertainty = false)
    (source target : List AtomId) (floor : Float) :
    reason s' source target params floor = reason s source target params floor := by
  rw [reason_eq, reason_eq, h.toTexts]
  refine bind_congr fun texts => bind_congr fun texts' => ?_
  rw [← answer_bare hu, ← answer_bare hu floor (source.filterMap s.get?), bare_twin h,
    bare_twin h]
  exact answer_congr (h.alike hs hs') ..

end

end Analogy

end Credence
