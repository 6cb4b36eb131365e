import Credence.Proofs.Inference.Confidence
import Credence.Proofs.Pattern.Instance
import Credence.Rule.Basic
/-!
# Derivations

What facts and enabled rules give for ground trees: a fact has the confidence it is
known with, and a ground instance of a rule gives its conclusion the least confidence
of its premises, scaled by the reliability of the rule.

A rule that was checked has premises, a reliability from zero to one, and no variable
in its conclusion that its premises do not bind.
-/

namespace Credence

open Number Pattern

/-- Whether a tree has a confidence by some facts and the enabled ones of some rules. -/
inductive Derivable (fact : Pattern → Float → Prop) (rules : List Rule) : Pattern → Float → Prop
  | fact {t : Pattern} {c : Float} (h : fact t c) : Derivable fact rules t c
  | rule {r : Rule} (hr : r ∈ rules) (he : r.enabled = true) {σ : Valuation}
    (hσ : ∀ v, (σ v).isGround = true) {cs : List Float} (hcs : cs.length = r.premises.length)
    (h : ∀ pc ∈ r.premises.zip cs, Derivable fact rules (pc.1.subst σ) pc.2) :
    Derivable fact rules (r.conclusion.subst σ) (Proof.least cs * r.reliability.toFloat)

namespace Rule

/-- What a check of a rule guarantees. -/
structure Checked (r : Rule) : Prop where
  premises : r.premises ≠ []
  reliability : r.reliability.isUnit = true
  bound : ∀ v ∈ r.conclusion.occurrences, v ∈ occurrencesList r.premises

theorem checked_of_check {r r' : Rule} (h : r.check = .ok r') : r.Checked ∧ r' = r := by
  unfold check at h
  split at h
  · cases h
  · next hne =>
    split at h
    · cases h
    · next hunit =>
      dsimp only at h
      split at h
      · next hall =>
        cases h
        refine ⟨⟨fun hnil => hne (by rw [hnil]; rfl), by simpa using hunit, fun v hv => ?_⟩, rfl⟩
        by_cases hin : v ∈ occurrencesList r.premises
        · exact hin
        · have hmem : v ∈ unbound r.premises r.conclusion :=
            List.mem_filter.2 ⟨mem_vars.2 hv, by simpa using hin⟩
          rw [List.isEmpty_iff.1 hall] at hmem
          cases hmem
      · cases h

theorem Checked.inUnit_reliability {r : Rule} (h : r.Checked) :
    inUnit r.reliability.toFloat = true := inUnit_toFloat _ h.reliability

/-- Whether the patterns of a rule are well kinded. -/
structure WellKinded (r : Rule) : Prop where
  premises : ∀ p ∈ r.premises, p.WellKinded
  conclusion : r.conclusion.WellKinded

end Rule

/-- A valuation with a ground tree for what it leaves open. -/
def grounded (vs : List String) (σ : Valuation) : Valuation := fun v =>
  if v ∈ vs then σ v else .node (.node .concept) ""

theorem isGround_grounded {vs : List String} {σ : Valuation}
    (h : ∀ v ∈ vs, (σ v).isGround = true) (v : String) : (grounded vs σ v).isGround = true := by
  unfold grounded
  split
  · next hv => exact h v hv
  · rfl

theorem subst_grounded {vs : List String} {σ : Valuation} {p : Pattern}
    (h : ∀ v ∈ p.occurrences, v ∈ vs) : p.subst (grounded vs σ) = p.subst σ := by
  refine subst_congr fun v hv => ?_
  unfold grounded
  rw [if_pos (h v hv)]

/-- Ground instances of the premises of a checked rule ground its conclusion. -/
theorem Rule.Checked.ground_instance {r : Rule} (h : r.Checked) {σ : Valuation}
    (hσ : ∀ p ∈ r.premises, (p.subst σ).isGround = true) :
    ∃ τ : Valuation, (∀ v, (τ v).isGround = true) ∧ r.conclusion.subst τ = r.conclusion.subst σ ∧
      r.premises.map (subst τ) = r.premises.map (subst σ) := by
  refine ⟨grounded (occurrencesList r.premises) σ, isGround_grounded fun v hv => ?_,
    subst_grounded h.bound, List.map_congr_left fun p hp => subst_grounded fun v hv => ?_⟩
  · obtain ⟨p, hp, hv⟩ := mem_occurrencesList.1 hv
    exact isGround_subst_iff.1 (hσ p hp) v hv
  · exact mem_occurrencesList.2 ⟨p, hp, hv⟩

/-- Every derived confidence lies between zero and one if those of the facts do. -/
theorem Derivable.inUnit {fact : Pattern → Float → Prop} {rules : List Rule}
    (hfact : ∀ t c, fact t c → Credence.inUnit c = true) (hrules : ∀ r ∈ rules, r.Checked) {t : Pattern}
    {c : Float} (h : Derivable fact rules t c) : Credence.inUnit c = true := by
  induction h with
  | fact h => exact hfact _ _ h
  | @rule r hr _ σ _ cs hcs _ ih =>
    refine (inUnit_mul (Proof.inUnit_least fun c hc => ?_) (hrules r hr).inUnit_reliability).1
    obtain ⟨i, hi, rfl⟩ := List.getElem_of_mem hc
    have hp : i < r.premises.length := hcs ▸ hi
    refine ih (r.premises[i], cs[i]) ?_
    have hz : i < (r.premises.zip cs).length := by
      rw [List.length_zip]
      omega
    rw [← List.getElem_zip (h := hz)]
    exact List.getElem_mem hz

end Credence
