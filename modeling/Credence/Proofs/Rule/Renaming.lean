import Credence.Proofs.Inference.Derivation
import Credence.Proofs.Ranking.Permutation
import Credence.Proofs.Unification.Values
/-!
# Renamed rules

The rules tried for a goal are instances of the enabled rules of the base: every
variable stands for the one with the suffix appended.
-/

namespace Credence

open Pattern Substitution

namespace Substitution

theorem kinded_ofList {es : List (String × Pattern)} (h : ∀ e ∈ es, e.2.WellKinded) :
    Kinded (Table.ofList es) := by
  unfold Table.ofList
  suffices hfold : ∀ θ : Substitution, θ.Kinded →
      Kinded (es.foldl (fun t e => t.insert e.1 e.2) θ) from hfold _ (values_empty _)
  induction es with
  | nil => exact fun θ hθ => hθ
  | cons e es ih =>
    intro θ hθ
    exact ih (fun e he => h e (List.mem_cons_of_mem _ he)) _
      (hθ.insert (h e (List.mem_cons_self ..)) e.1)

theorem kinded_suffixing (ps : List Pattern) (suffix : String) : Kinded (suffixing ps suffix) := by
  refine kinded_ofList fun e he => ?_
  obtain ⟨v, _, rfl⟩ := List.mem_map.1 he
  exact trivial

end Substitution

namespace Rule

/-- What the variables of a rule become when a suffix is appended to them. -/
def suffixed (r : Rule) (suffix : String) : Valuation :=
  (suffixing (r.conclusion :: r.premises) suffix).value

theorem conclusion_renamed (r : Rule) (suffix : String) :
    (r.renamed suffix).conclusion = r.conclusion.subst (r.suffixed suffix) :=
  apply_eq_subst _

theorem premises_renamed (r : Rule) (suffix : String) :
    (r.renamed suffix).premises = r.premises.map (subst (r.suffixed suffix)) :=
  List.map_congr_left fun p _ => apply_eq_subst p

theorem WellKinded.renamed {r : Rule} (h : r.WellKinded) (suffix : String) :
    (r.renamed suffix).WellKinded where
  premises p hp := by
    obtain ⟨q, hq, rfl⟩ := List.mem_map.1 hp
    exact Kinded.apply (kinded_suffixing _ _) (h.premises q hq)
  conclusion := Kinded.apply (kinded_suffixing _ _) h.conclusion

/-- An instance of a renamed rule is an instance of the rule. -/
theorem subst_conclusion_renamed (r : Rule) (suffix : String) (σ : Valuation) :
    (r.renamed suffix).conclusion.subst σ =
      r.conclusion.subst fun v => (r.suffixed suffix v).subst σ := by
  rw [conclusion_renamed, subst_subst]

theorem subst_premises_renamed (r : Rule) (suffix : String) (σ : Valuation) :
    (r.renamed suffix).premises.map (subst σ) =
      r.premises.map (subst fun v => (r.suffixed suffix v).subst σ) := by
  rw [premises_renamed, List.map_map]
  exact List.map_congr_left fun p _ => subst_subst _ σ p

end Rule

namespace RuleBase

theorem mem_rulesFrom {goal : Pattern} {tag : String} {i : Nat} {rs : List Rule} {r : Rule}
    (h : r ∈ rulesFrom goal tag i rs) :
    ∃ r₀ ∈ rs, ∃ j : Nat, r = r₀.renamed ("_" ++ tag ++ toString j) := by
  induction rs generalizing i with
  | nil => cases h
  | cons r₁ rs ih =>
    unfold rulesFrom at h
    dsimp only at h
    have hrest : r ∈ rulesFrom goal tag (i + 1) rs →
        ∃ r₀ ∈ r₁ :: rs, ∃ j : Nat, r = r₀.renamed ("_" ++ tag ++ toString j) := by
      intro h
      obtain ⟨r₀, hr₀, hr⟩ := ih h
      exact ⟨r₀, List.mem_cons_of_mem _ hr₀, hr⟩
    split at h
    · rcases List.mem_cons.1 h with rfl | h
      · exact ⟨r₁, List.mem_cons_self .., _, rfl⟩
      · exact hrest h
    · exact hrest h

/-- The rules for a goal are enabled rules of the base under a suffix. -/
theorem mem_rulesFor {b : RuleBase} {goal : Pattern} {tag : String} {r : Rule}
    (h : r ∈ b.rulesFor goal tag) :
    ∃ r₀ ∈ b.rules, r₀.enabled = true ∧ ∃ suffix, r = r₀.renamed suffix := by
  obtain ⟨r₀, hr₀, j, hr⟩ := mem_rulesFrom h
  obtain ⟨hmem, he⟩ := mem_inOrder.1 hr₀
  exact ⟨r₀, hmem, he, _, hr⟩

end RuleBase

end Credence
