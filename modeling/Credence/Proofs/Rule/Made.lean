import Credence.Proofs.Rule.Fresh
import Credence.Proofs.Unification.Rename
/-!
# Names made for rules

Before a rule is tried its variables get a suffix, so all names that it brings into a
search are names made for the base. A renaming that leaves these alone has no effect on
the rules tried for a goal.
-/

namespace Credence

open Function (Injective)
open Pattern Substitution

/-- A pattern under a suffix has only names that the suffix makes of those it is for. -/
theorem Substitution.over_suffixing {ps : List Pattern} {p : Pattern}
    (hp : ∀ v ∈ p.occurrences, v ∈ occurrencesList ps) (suffix : String) :
    ((suffixing ps suffix).apply p).Over fun u => ∃ v ∈ occurrencesList ps, u = v ++ suffix := by
  have hbound : ∀ v ∈ p.occurrences, (suffixing ps suffix).get? v = some (.var (v ++ suffix)) :=
    fun v hv => (Rule.get?_suffixing ps suffix v).trans (if_pos (hp v hv))
  have hvalues : Values (Pattern.Over fun u => ∃ v ∈ occurrencesList ps, u = v ++ suffix)
      (suffixing ps suffix) := by
    intro v q hv
    rw [Rule.get?_suffixing] at hv
    split at hv
    · next hin =>
      cases hv
      intro u hu
      exact ⟨v, hin, List.mem_singleton.1 hu⟩
    · cases hv
  unfold apply
  cases hsize : (suffixing ps suffix).size with
  | zero =>
    -- Without bindings there are no variables to rename.
    intro u hu
    have hkey : u ∈ (suffixing ps suffix).keys :=
      mem_keys.2 (by rw [hbound u hu]; exact Option.some_ne_none _)
    have hkeys : (suffixing ps suffix).keys = [] :=
      List.length_eq_zero_iff.1 ((List.length_map _).trans hsize)
    rw [hkeys] at hkey
    cases hkey
  | succ n =>
    rw [follow_succ]
    refine hvalues.follow (hereditary_over _) n fun u hu => ?_
    obtain ⟨v, hv, hu⟩ := (Unification.mem_occurrences_subst _ _ u).1 hu
    unfold step at hu
    rw [hbound v hv] at hu
    exact ⟨v, hp v hv, List.mem_singleton.1 hu⟩

namespace RuleBase

variable {b : RuleBase} {f : String → String}

/-- Whether a tag is one of those that rules are renamed by: for the goal of a number, or to explain
a failure. -/
def IsTag (tag : String) : Prop := (∃ n : Nat, tag = toString n ++ "_") ∨ tag = "why_"

/-- Whether a name is made for an enabled rule. -/
def Makes (b : RuleBase) (u : String) : Prop :=
  ∃ r ∈ b.rules, r.enabled = true ∧ ∃ v ∈ r.names, ∃ tag, IsTag tag ∧
    ∃ i : Nat, u = v ++ ("_" ++ tag ++ toString i)

theorem over_made {r : Rule} (hr : r ∈ b.inOrder) {tag : String} (ht : IsTag tag) (i : Nat) :
    (r.renamed ("_" ++ tag ++ toString i)).conclusion.Over b.Makes ∧
      ∀ p ∈ (r.renamed ("_" ++ tag ++ toString i)).premises, p.Over b.Makes := by
  obtain ⟨hmem, he⟩ := mem_inOrder.1 hr
  have hover : ∀ p : Pattern, (∀ v ∈ p.occurrences, v ∈ r.names) →
      ((suffixing (r.conclusion :: r.premises) ("_" ++ tag ++ toString i)).apply p).Over b.Makes := by
    intro p hp u hu
    obtain ⟨v, hv, rfl⟩ := over_suffixing hp _ u hu
    exact ⟨r, hmem, he, v, hv, tag, ht, i, rfl⟩
  refine ⟨hover _ fun v hv => Rule.mem_names_of_conclusion hv, fun p hp => ?_⟩
  obtain ⟨q, hq, rfl⟩ := List.mem_map.1 hp
  exact hover q fun v hv => Rule.mem_names_of_premise hq hv

/-- What is left alone in all names made for a base is left alone in its rules under a tag. -/
theorem fixed_of_mem_rulesFor (hfix : ∀ u, b.Makes u → f u = u) {goal : Pattern} {tag : String}
    (ht : IsTag tag) {r : Rule} (hr : r ∈ b.rulesFor goal tag) :
    r.conclusion.rename f = r.conclusion ∧ ∀ p ∈ r.premises, p.rename f = p := by
  obtain ⟨r₀, hr₀, i, rfl⟩ := mem_rulesFrom hr
  obtain ⟨hconclusion, hpremises⟩ := over_made hr₀ ht i
  exact ⟨rename_of_fixed fun u hu => hfix u (hconclusion u hu),
    fun p hp => rename_of_fixed fun u hu => hfix u (hpremises p hp u hu)⟩

/-- The same rules are tried for a goal and for its renaming. -/
theorem rulesFor_rename (hf : Injective f) (hfix : ∀ u, b.Makes u → f u = u) (goal : Pattern)
    {tag : String} (ht : IsTag tag) : b.rulesFor (goal.rename f) tag = b.rulesFor goal tag := by
  unfold rulesFor
  suffices hfrom : ∀ rs i, (∀ r ∈ rs, r ∈ b.inOrder) →
      rulesFrom (goal.rename f) tag i rs = rulesFrom goal tag i rs from
    hfrom _ _ fun _ hr => hr
  intro rs
  induction rs with
  | nil => exact fun _ _ => rfl
  | cons r rs ih =>
    intro i hrs
    obtain ⟨hr, hrest⟩ := List.forall_mem_cons.1 hrs
    have hconclusion : (r.renamed ("_" ++ tag ++ toString i)).conclusion.rename f =
        (r.renamed ("_" ++ tag ++ toString i)).conclusion :=
      rename_of_fixed fun u hu => hfix u ((over_made hr ht i).1 u hu)
    have hunify := Unification.unify_rename_left hf goal hconclusion .empty
    have hempty : Substitution.rename f .empty = .empty := rfl
    rw [hempty] at hunify
    unfold rulesFrom
    dsimp only
    rw [hunify, ih (i + 1) hrest]
    cases Unification.unify goal (r.renamed ("_" ++ tag ++ toString i)).conclusion .empty <;> rfl

end RuleBase

end Credence
