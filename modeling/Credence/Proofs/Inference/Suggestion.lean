import Credence.Proofs.Except
import Credence.Proofs.Params
import Credence.Inference.Analogy
/-!
# Suggestions

Reasoning by analogy goes through the source links and predicts what they suggest, each
statement once, until there are as many predictions as results may be given. So where
there are no more different statements than that, the bound leaves none out; and where
there may be as many results as there are source atoms, all statements are predicted.
-/

namespace Credence.Analogy

/-- A new fact over the target, and the similarities that it was carried over with. -/
structure Suggestion where
  kind : LinkKind
  children : List AtomId
  similarities : List Float

/-- What a source link suggests, if it suggests something new. -/
def suggestion? (s : Store) (map : Table AtomId (AtomId × Float)) (a : Atom) : Option Suggestion :=
  match a.form with
  | .node _ _ => none
  | .link k out =>
    match carry s map out with
    | none => none
    | some (children, xs) =>
      if xs.isEmpty || (s.findLink k children).isSome then none else some ⟨k, children, xs⟩

/-- The statement of a suggestion. -/
def Suggestion.text (s : Store) (g : Suggestion) : Except Error String := do
  let trees ← g.children.mapM s.toPattern
  return (Pattern.link (.link g.kind) trees).toText

/-- The statements that source links suggest. -/
def suggested (s : Store) (map : Table AtomId (AtomId × Float)) (as : List Atom) :
    Except Error (List String) :=
  (as.filterMap (suggestion? s map)).mapM (Suggestion.text s)

section

variable {s : Store} {params : Params} {map : Table AtomId (AtomId × Float)}

/-- A source atom is passed over if it suggests nothing, or what was suggested before it. -/
theorem project_cons (a : Atom) (rest : List Atom) (done : List Prediction) :
    project s params map (a :: rest) done =
      (match suggestion? s map a with
      | none => project s params map rest done
      | some g => do
        let text ← g.text s
        if done.any fun p => p.statement = text then project s params map rest done
        else if done.length ≥ params.maxResults then return done
        else do
          let basedOn ← s.toText a.id
          project s params map rest (done ++ [⟨text,
            confidenceOf params.useUncertainty a * Number.mean g.similarities, basedOn⟩])) := by
  unfold suggestion? Suggestion.text
  rw [project]
  cases a.form with
  | node k name => rfl
  | link k out =>
    dsimp only
    cases carry s map out with
    | none => rfl
    | some carried =>
      dsimp only
      split
      · rfl
      · simp only [bind_assoc, pure_bind]

theorem any_statement_iff {done : List Prediction} {text : String} :
    (done.any fun p => p.statement = text) = true ↔ text ∈ done.map Prediction.statement := by
  simp [List.any_eq_true]

/-- Where all statements are among fewer texts than there may be results, none is left out. -/
theorem project_widened {m n : Nat} {texts : List String} {as : List Atom}
    (hmax : texts.length ≤ params.maxResults) (hn : texts.length ≤ n)
    (has : ∀ a ∈ as, ∀ g, suggestion? s map a = some g → ∀ t, g.text s = .ok t → t ∈ texts)
    {done : List Prediction} (hdone : ∀ t ∈ done.map Prediction.statement, t ∈ texts)
    (hnodup : (done.map Prediction.statement).Nodup) :
    project s (params.widened m n) map as done = project s params map as done := by
  induction as generalizing done with
  | nil => rfl
  | cons a as ih =>
    obtain ⟨ha, has⟩ := List.forall_mem_cons.1 has
    rw [project_cons, project_cons]
    cases hg : suggestion? s map a with
    | none => exact ih has hdone hnodup
    | some g =>
      dsimp only
      cases ht : g.text s with
      | error e => rfl
      | ok t =>
        have htexts : t ∈ texts := ha g hg t ht
        show (if _ then _ else _) = if _ then _ else _
        by_cases hany : (done.any fun p => p.statement = t) = true
        · rw [if_pos hany, if_pos hany]
          exact ih has hdone hnodup
        · -- The new statement fits among the texts beside those that were made before.
          have hnew : ((done.map Prediction.statement) ++ [t]).Nodup :=
            List.nodup_append.2 ⟨hnodup, List.pairwise_singleton .., fun u hu v hv heq => hany
              (any_statement_iff.2 (by rwa [← List.mem_singleton.1 hv, ← heq]))⟩
          have hall : ∀ u ∈ done.map Prediction.statement ++ [t], u ∈ texts := by
            intro u hu
            rcases List.mem_append.1 hu with hu | hu
            · exact hdone u hu
            · rwa [List.mem_singleton.1 hu]
          have hlen := length_le_of_subset hnew hall
          rw [List.length_append, List.length_map, List.length_singleton] at hlen
          rw [if_neg hany, if_neg hany, if_neg (by rw [Params.maxResults_widened]; omega),
            if_neg (by omega)]
          refine bind_congr fun basedOn => ih has ?_ ?_
          · rwa [List.map_append]
          · rwa [List.map_append]

theorem length_le_of_project {as : List Atom} {done ps : List Prediction}
    (h : project s params map as done = .ok ps) (hdone : done.length ≤ params.maxResults) :
    ps.length ≤ params.maxResults := by
  induction as generalizing done with
  | nil =>
    cases h
    exact hdone
  | cons a as ih =>
    rw [project_cons] at h
    cases hg : suggestion? s map a with
    | none =>
      rw [hg] at h
      exact ih h hdone
    | some g =>
      rw [hg] at h
      obtain ⟨t, -, h⟩ := bind_eq_ok h
      split at h
      · exact ih h hdone
      · split at h
        · cases h
          exact hdone
        · obtain ⟨basedOn, -, h⟩ := bind_eq_ok h
          refine ih h ?_
          rw [List.length_append, List.length_singleton]
          omega

/-- Where there may be as many results as there are source atoms, all suggestions are made. -/
theorem suggested_of_project {as : List Atom} {done ps : List Prediction}
    (h : project s params map as done = .ok ps)
    (hmax : done.length + as.length ≤ params.maxResults) :
    (∀ p ∈ done, p ∈ ps) ∧ ∃ texts, suggested s map as = .ok texts ∧
      ∀ t ∈ texts, t ∈ ps.map Prediction.statement := by
  induction as generalizing done with
  | nil =>
    cases h
    exact ⟨fun p hp => hp, [], rfl, List.forall_mem_nil _⟩
  | cons a as ih =>
    rw [List.length_cons] at hmax
    rw [project_cons] at h
    unfold suggested
    cases hg : suggestion? s map a with
    | none =>
      rw [hg] at h
      rw [List.filterMap_cons_none hg]
      exact ih h (by omega)
    | some g =>
      rw [hg] at h
      obtain ⟨t, ht, h⟩ := bind_eq_ok h
      rw [List.filterMap_cons_some hg]
      -- Whether made now or before, the statement is among the predictions.
      have hrest : ∀ {done'}, project s params map as done' = .ok ps →
          done'.length + as.length ≤ params.maxResults → (∀ p ∈ done, p ∈ done') →
          t ∈ done'.map Prediction.statement →
          (∀ p ∈ done, p ∈ ps) ∧ ∃ texts,
            (g :: as.filterMap (suggestion? s map)).mapM (Suggestion.text s) = .ok texts ∧
              ∀ u ∈ texts, u ∈ ps.map Prediction.statement := by
        intro done' h' hmax' hsub hmem
        obtain ⟨hkept, texts, htexts, hall⟩ := ih h' hmax'
        refine ⟨fun p hp => hkept p (hsub p hp), t :: texts, ?_, List.forall_mem_cons.2 ⟨?_, hall⟩⟩
        · unfold suggested at htexts
          rw [List.mapM_cons, ht, htexts]
          rfl
        · obtain ⟨p, hp, rfl⟩ := List.mem_map.1 hmem
          exact List.mem_map_of_mem (hkept p hp)
      split at h
      · next hany => exact hrest h (by omega) (fun p hp => hp) (any_statement_iff.1 hany)
      · rw [if_neg (by omega)] at h
        obtain ⟨basedOn, -, h⟩ := bind_eq_ok h
        refine hrest h ?_ (fun p hp => List.mem_append_left _ hp) ?_
        · rw [List.length_append, List.length_singleton]
          omega
        · rw [List.map_append]
          exact List.mem_append_right _ (List.mem_singleton_self _)

/-- A bound that no fewer statements meet than are suggested may be widened. -/
theorem project_widened_of_differing_le {m n : Nat} {as : List Atom} {texts : List String}
    (htexts : suggested s map as = .ok texts) (hmax : differing texts ≤ params.maxResults)
    (hn : params.maxResults ≤ n) :
    project s (params.widened m n) map as [] = project s params map as [] := by
  refine project_widened hmax (Nat.le_trans hmax hn) (fun a ha g hg t ht => ?_)
    (List.forall_mem_nil _) List.nodup_nil
  exact (mem_distinct t _).2 (mem_of_mapM htexts (List.mem_filterMap.2 ⟨a, ha, hg⟩) ht)

/-- As many statements are predicted as are suggested if there may be as many results as there are
source atoms. -/
theorem differing_le_of_project {as : List Atom} {ps : List Prediction}
    (h : project s params map as [] = .ok ps) (hmax : as.length ≤ params.maxResults) :
    ∃ texts, suggested s map as = .ok texts ∧ differing texts ≤ ps.length := by
  have hmax' : ([] : List Prediction).length + as.length ≤ params.maxResults := by
    rwa [List.length_nil, Nat.zero_add]
  obtain ⟨-, texts, htexts, hmem⟩ := suggested_of_project h hmax'
  refine ⟨texts, htexts, ?_⟩
  rw [← List.length_map (f := Prediction.statement)]
  exact length_le_of_subset (nodup_distinct texts) fun t ht => hmem t ((mem_distinct t _).1 ht)

end

end Credence.Analogy
