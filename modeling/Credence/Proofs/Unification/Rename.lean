import Credence.Proofs.Pattern.Rename
import Credence.Proofs.Table
import Credence.Proofs.Unification.Solving
/-!
# Renamed substitutions

Names mean nothing to a substitution: with all names changed by an injective function,
bound ones and those of the values, it does the same to patterns changed alike. Nor do
they mean anything to unification, which binds the changed names in the same order.
-/

namespace Credence

open Function (Injective)
open Pattern

variable {f : String → String}

namespace Substitution

/-- The substitution with all names changed. -/
def rename (f : String → String) (θ : Substitution) : Substitution := θ.relabel f (Pattern.rename f)

variable (hf : Injective f)
include hf

theorem follow_rename (θ : Substitution) (n : Nat) (p : Pattern) :
    (θ.rename f).follow n (p.rename f) = (θ.follow n p).rename f := by
  induction n generalizing p with
  | zero => rfl
  | succ n ih =>
    unfold follow
    rw [subst_rename, rename_subst]
    refine subst_congr fun v _ => ?_
    unfold rename
    rw [Table.get?_relabel hf]
    cases θ.get? v with
    | none => rfl
    | some q => exact ih q

theorem apply_rename (θ : Substitution) (p : Pattern) :
    (θ.rename f).apply (p.rename f) = (θ.apply p).rename f := by
  unfold apply
  rw [← follow_rename hf, show (θ.rename f).size = θ.size from List.length_map _]

theorem resolve_rename (θ : Substitution) (names : List String) :
    (θ.rename f).resolve (names.map f) = (θ.resolve names).relabel f (Pattern.rename f) := by
  unfold resolve
  rw [← Table.ofList_relabel hf, List.filterMap_map, List.map_filterMap]
  refine congrArg Table.ofList (List.filterMap_congr fun v _ => ?_)
  show Option.map _ ((θ.rename f).get? (f v)) = _
  unfold rename
  rw [Table.get?_relabel hf]
  cases θ.get? v with
  | none => rfl
  | some p => exact congrArg (fun q => some (f v, q)) (apply_rename hf θ p)

end Substitution

namespace Unification

/-! ## One equation at a time -/

section

variable {θ : Substitution} {rest : List Equation}

theorem solve_same (p : Pattern) : solve ((p, p) :: rest) θ = solve rest θ := by
  rw [solve.eq_def]
  exact if_pos rfl

theorem solve_var_left {v : String} {q : Pattern} (h : var v ≠ q) :
    solve ((.var v, q) :: rest) θ =
      if v ∈ q.occurrences then none else solve (replaceAll v q rest) (θ.insert v q) := by
  rw [solve.eq_def]
  exact if_neg h

theorem solve_var_right {p : Pattern} {v : String} (h : p ≠ var v) (hp : ∀ w, p ≠ var w) :
    solve ((p, .var v) :: rest) θ =
      if v ∈ p.occurrences then none else solve (replaceAll v p rest) (θ.insert v p) := by
  rw [solve.eq_def]
  refine (if_neg h).trans ?_
  cases p with
  | var w => exact absurd rfl (hp w)
  | node k n => rfl
  | link k cs => rfl

theorem solve_links {k l : Kind} {ps qs : List Pattern} (h : link k ps ≠ link l qs) :
    solve ((.link k ps, .link l qs) :: rest) θ =
      if k = l ∧ ps.length = qs.length then solve (ps.zip qs ++ rest) θ else none := by
  rw [solve.eq_def]
  exact if_neg h

end

/-! ## Renamed equations -/

/-- The equations with their variables renamed. -/
def renameAll (f : String → String) (es : List Equation) : List Equation :=
  es.map fun e => (e.1.rename f, e.2.rename f)

theorem rename_ne_var {p : Pattern} (hp : ∀ v, p ≠ var v) (w : String) : p.rename f ≠ var w := by
  cases p with
  | var v => exact absurd rfl (hp v)
  | node k n => exact nofun
  | link k cs => exact nofun

variable (hf : Injective f)
include hf

theorem replace_rename (v : String) (p q : Pattern) :
    replace (f v) (p.rename f) (q.rename f) = (replace v p q).rename f := by
  unfold replace
  rw [subst_rename, rename_subst]
  refine subst_congr fun w _ => ?_
  simp only [hf.eq_iff]
  split <;> rfl

theorem replaceAll_rename (v : String) (p : Pattern) (es : List Equation) :
    replaceAll (f v) (p.rename f) (renameAll f es) = renameAll f (replaceAll v p es) := by
  unfold replaceAll renameAll
  rw [List.map_map, List.map_map]
  refine List.map_congr_left fun e _ => ?_
  exact Prod.ext (replace_rename hf v p e.1) (replace_rename hf v p e.2)

theorem solve_bind_rename (v : String) (q : Pattern) (rest : List Equation) (θ : Substitution) :
    solve (replaceAll (f v) (q.rename f) (renameAll f rest)) ((θ.rename f).insert (f v) (q.rename f)) =
      solve (renameAll f (replaceAll v q rest)) (Substitution.rename f (θ.insert v q)) := by
  rw [replaceAll_rename hf]
  exact congrArg _ (Table.insert_relabel hf θ v q)

/-- Every step of solving is the same step on the renamed equations. -/
theorem solve_rename (es : List Equation) (θ : Substitution) :
    solve (renameAll f es) (θ.rename f) = (solve es θ).map (Substitution.rename f) := by
  have hne {p q : Pattern} (h : p ≠ q) : p.rename f ≠ q.rename f := (rename_injective hf).ne h
  fun_induction solve es θ with
  | case1 θ =>
    unfold solve renameAll
    rfl
  | case2 θ q rest ih => exact (solve_same (q.rename f)).trans ih
  | case3 θ rest v q hin hvq =>
    exact (solve_var_left (hne hvq)).trans (if_pos ((mem_occurrences_rename hf).2 hin))
  | case4 θ rest v q hnot hvq ih =>
    rw [← ih, ← solve_bind_rename hf]
    exact (solve_var_left (hne hvq)).trans (if_neg (mt (mem_occurrences_rename hf).1 hnot))
  | case5 θ rest p v hp hin hpv =>
    refine (solve_var_right (hne hpv) (rename_ne_var hp)).trans ?_
    exact if_pos ((mem_occurrences_rename hf).2 hin)
  | case6 θ rest p v hp hnot hpv ih =>
    rw [← ih, ← solve_bind_rename hf]
    refine (solve_var_right (hne hpv) (rename_ne_var hp)).trans ?_
    exact if_neg (mt (mem_occurrences_rename hf).1 hnot)
  | case7 θ rest k ps l qs hkl hpq ih =>
    have hlinks := hne hpq
    show solve (((link k ps).rename f, (link l qs).rename f) :: renameAll f rest) _ = _
    rw [rename_link, rename_link] at hlinks ⊢
    rw [← ih, solve_links hlinks, if_pos (by rwa [List.length_map, List.length_map])]
    unfold renameAll
    rw [List.map_append, List.zip_map]
    rfl
  | case8 θ rest k ps l qs hkl hpq =>
    have hlinks := hne hpq
    show solve (((link k ps).rename f, (link l qs).rename f) :: renameAll f rest) _ = _
    rw [rename_link, rename_link] at hlinks ⊢
    rw [solve_links hlinks, if_neg (by rwa [List.length_map, List.length_map])]
    rfl
  | case9 θ p q rest hpq hp hq hlinks =>
    rw [solve.eq_def]
    refine (if_neg (hne hpq)).trans ?_
    cases p with
    | var v => exact absurd rfl (hp v)
    | node k n =>
      cases q with
      | var w => exact absurd rfl (hq w)
      | node l m => rfl
      | link l qs => rfl
    | link k ps =>
      cases q with
      | var w => exact absurd rfl (hq w)
      | node l m => rfl
      | link l qs => exact absurd rfl (hlinks k ps l qs rfl)

/-- Patterns with renamed variables unify under renamed bindings as they did before. -/
theorem unify_rename (p q : Pattern) (θ : Substitution) :
    unify (p.rename f) (q.rename f) (θ.rename f) = (unify p q θ).map (Substitution.rename f) := by
  unfold unify
  rw [Substitution.apply_rename hf, Substitution.apply_rename hf]
  exact solve_rename hf [(θ.apply p, θ.apply q)] θ

/-- What has only names that are left alone unifies with a renamed pattern as with the pattern. -/
theorem unify_rename_left (p : Pattern) {q : Pattern} (hq : q.rename f = q) (θ : Substitution) :
    unify (p.rename f) q (θ.rename f) = (unify p q θ).map (Substitution.rename f) := by
  have h := unify_rename hf p q θ
  rwa [hq] at h

end Unification

end Credence
