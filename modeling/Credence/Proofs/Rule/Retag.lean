import Credence.Proofs.Rule.Fresh
import Credence.Proofs.Unification.Recursion
import Credence.Proofs.Unification.Rename
/-!
# Other tags for the same rules

The tag that rules are tried under shows in the names of their variables and nowhere
else. Exchanging the tags in all names is a renaming, and it takes the rules that are
tried for a goal under a tag to those for the renamed goal under the other one.
-/

namespace Credence

open Function (Injective)
open Pattern Substitution

variable {g : String → String}

/-! ## Exchanging tags -/

open Classical in
/-- The name with its tag changed, if it has one. -/
noncomputable def retag (g : String → String) (u : String) : String :=
  if h : ∃ x : String × String × Nat, '_' ∉ x.2.1.toList ∧ u = x.1 ++ tagged x.2.1 x.2.2 then
    h.choose.1 ++ tagged (g h.choose.2.1) h.choose.2.2
  else u

theorem retag_append_tagged (v : String) {t : String} (ht : '_' ∉ t.toList) (i : Nat) :
    retag g (v ++ tagged t i) = v ++ tagged (g t) i := by
  have h : ∃ x : String × String × Nat, '_' ∉ x.2.1.toList ∧
      v ++ tagged t i = x.1 ++ tagged x.2.1 x.2.2 := ⟨(v, t, i), ht, rfl⟩
  obtain ⟨hsep, heq⟩ := h.choose_spec
  obtain ⟨hv, htag, hi⟩ := append_tagged_inj ht hsep heq
  unfold retag
  rw [dif_pos h, ← hv, ← htag, ← hi]

theorem retag_of_untagged {u : String} (h : ∀ v t i, '_' ∉ t.toList → u ≠ v ++ tagged t i) :
    retag g u = u := by
  unfold retag
  rw [dif_neg]
  rintro ⟨⟨v, t, i⟩, ht, hu⟩
  exact h v t i ht hu

/-- A name without underscores has no tag. -/
theorem ne_append_tagged {u : String} (h : '_' ∉ u.toList) (v t : String) (i : Nat) :
    u ≠ v ++ tagged t i := by
  rintro rfl
  apply h
  unfold tagged
  simp [String.toList_append]

theorem retag_of_plain {u : String} (h : '_' ∉ u.toList) : retag g u = u :=
  retag_of_untagged fun v t i _ => ne_append_tagged h v t i

theorem rename_retag_of_plain {p : Pattern} (h : ∀ v ∈ p.vars, '_' ∉ v.toList) :
    p.rename (retag g) = p :=
  rename_of_fixed fun v hv => retag_of_plain (h v (mem_vars.2 hv))

theorem injective_retag (hg : Injective g) (hsep : ∀ t, '_' ∉ t.toList → '_' ∉ (g t).toList) :
    Injective (retag g) := by
  -- A name is tagged exactly if its image is, so the two kinds of names do not meet.
  have hcases : ∀ u, (∃ v t i, '_' ∉ t.toList ∧ u = v ++ tagged t i) ∨
      ∀ v t i, '_' ∉ t.toList → u ≠ v ++ tagged t i := by
    intro u
    by_cases h : ∃ v t i, '_' ∉ t.toList ∧ u = v ++ tagged t i
    · exact .inl h
    · exact .inr fun v t i ht hu => h ⟨v, t, i, ht, hu⟩
  intro u w h
  rcases hcases u with ⟨v, t, i, ht, rfl⟩ | hu
  · rcases hcases w with ⟨v', t', j, ht', rfl⟩ | hw
    · rw [retag_append_tagged v ht, retag_append_tagged v' ht'] at h
      obtain ⟨rfl, htag, rfl⟩ := append_tagged_inj (hsep t ht) (hsep t' ht') h
      rw [hg htag]
    · rw [retag_append_tagged v ht, retag_of_untagged hw] at h
      exact absurd h.symm (hw v (g t) i (hsep t ht))
  · rcases hcases w with ⟨v, t, i, ht, rfl⟩ | hw
    · rw [retag_append_tagged v ht, retag_of_untagged hu] at h
      exact absurd h (hu v (g t) i (hsep t ht))
    · rwa [retag_of_untagged hu, retag_of_untagged hw] at h

/-! ## Rules under exchanged tags -/

namespace Rule

/-- The rule with its variables renamed. -/
def rename (f : String → String) (r : Rule) : Rule :=
  { r with premises := r.premises.map (Pattern.rename f), conclusion := r.conclusion.rename f }

/-- Whether no variable of a rule has an underscore. -/
def Plain (r : Rule) : Prop := ∀ v ∈ r.names, '_' ∉ v.toList

theorem Plain.suffixed {r : Rule} (h : r.Plain) {v : String} (hv : v ∈ r.names) (t : String)
    (i : Nat) : r.suffixed (tagged t i) v = .var (v ++ tagged t i) :=
  suffixed_of_free (fun u hu w => ne_append_tagged (h u hu) w t i) hv

theorem Plain.renamed_retag {r : Rule} (h : r.Plain) {t : String} (ht : '_' ∉ t.toList) (i : Nat) :
    r.renamed (tagged (g t) i) = (r.renamed (tagged t i)).rename (retag g) := by
  have hpart : ∀ p : Pattern, (∀ v ∈ p.occurrences, v ∈ r.names) →
      p.subst (r.suffixed (tagged (g t) i)) =
        (p.subst (r.suffixed (tagged t i))).rename (retag g) := by
    intro p hp
    rw [rename_subst]
    refine subst_congr fun v hv => ?_
    rw [h.suffixed (hp v hv), h.suffixed (hp v hv)]
    show _ = Pattern.var (retag g (v ++ tagged t i))
    rw [retag_append_tagged v ht]
  have hconclusion := hpart r.conclusion fun v hv => mem_names_of_conclusion hv
  have hpremises : r.premises.map (subst (r.suffixed (tagged (g t) i))) =
      (r.premises.map (subst (r.suffixed (tagged t i)))).map (Pattern.rename (retag g)) := by
    rw [List.map_map]
    exact List.map_congr_left fun p hp => hpart p fun v hv => mem_names_of_premise hp hv
  rw [← conclusion_renamed, ← conclusion_renamed] at hconclusion
  rw [← premises_renamed, ← premises_renamed] at hpremises
  unfold rename
  rw [← hconclusion, ← hpremises]
  rfl

/-- Whether a goal has an instance that is one of the conclusion. -/
def Applies (r : Rule) (goal : Pattern) : Prop :=
  ∃ σ τ : Valuation, goal.subst σ = r.conclusion.subst τ

/-- Under a suffix that ends no name in use, the conclusion of a rule unifies with a goal if the rule
applies to it. -/
theorem unify_ne_none_iff_of_free {r : Rule} {goal : Pattern} {suffix : String}
    (hfree : ∀ v ∈ r.names, ∀ w, v ≠ w ++ suffix)
    (hgoal : ∀ v ∈ goal.vars, ∀ w, v ≠ w ++ suffix) :
    Unification.unify goal (r.renamed suffix).conclusion .empty ≠ none ↔ r.Applies goal := by
  constructor
  · intro hsome
    obtain ⟨θ, hθ⟩ := Option.ne_none_iff_exists'.1 hsome
    have hgeneral := Unification.mostGeneral_of_unify acyclic_empty hθ
    have hequal := ((hgeneral.solves_iff _).1 hgeneral.acyclic.solves_value).2
    rw [subst_conclusion_renamed] at hequal
    exact ⟨_, _, hequal⟩
  · rintro ⟨σ, τ, hequal⟩ hnone
    -- The names of the rule stand beside those of the goal, so one valuation gives both.
    have hsubst : goal.subst (r.beside suffix τ σ) = goal.subst σ :=
      subst_congr fun v hv => beside_of_ne (hgoal v (mem_vars.2 hv))
    refine Unification.ne_of_unify_eq_none acyclic_empty hnone
      (solves_empty (r.beside suffix τ σ)) ?_
    rw [hsubst, conclusion_beside_of_free hfree, hequal]

/-- Under a tag the conclusion of a rule unifies with a goal if the rule applies to it. -/
theorem Plain.unify_ne_none_iff {r : Rule} (h : r.Plain) {goal : Pattern}
    (hg : ∀ v ∈ goal.vars, '_' ∉ v.toList) (t : String) (i : Nat) :
    Unification.unify goal (r.renamed (tagged t i)).conclusion .empty ≠ none ↔ r.Applies goal :=
  unify_ne_none_iff_of_free (fun v hv w => ne_append_tagged (h v hv) w t i)
    fun v hv w => ne_append_tagged (hg v hv) w t i

end Rule

namespace RuleBase

variable {b : RuleBase}

theorem Fails.not_applies {goal : Pattern} (hgoal : ∀ v ∈ goal.vars, '_' ∉ v.toList) {t : String}
    {r : Rule} (hr : r.Plain) (h : Fails goal (t ++ "_") r) : ¬ r.Applies goal := by
  obtain ⟨i, hnone⟩ := h
  exact fun happlies => (hr.unify_ne_none_iff hgoal t i).2 happlies hnone

/-- The rules for a renamed goal under one tag are the renamed rules for the goal under the other. -/
theorem rulesFor_retag (hf : Injective (retag g)) (hb : ∀ r ∈ b.rules, r.Plain) (goal : Pattern)
    {t : String} (ht : '_' ∉ t.toList) :
    b.rulesFor (goal.rename (retag g)) (g t ++ "_") =
      (b.rulesFor goal (t ++ "_")).map (Rule.rename (retag g)) := by
  unfold rulesFor
  suffices hfrom : ∀ rs i, (∀ r ∈ rs, r.Plain) →
      rulesFrom (goal.rename (retag g)) (g t ++ "_") i rs =
        (rulesFrom goal (t ++ "_") i rs).map (Rule.rename (retag g)) from
    hfrom _ _ fun r hr => hb r (mem_inOrder.1 hr).1
  intro rs
  induction rs with
  | nil => exact fun _ _ => rfl
  | cons r rs ih =>
    intro i hrs
    obtain ⟨hr, hrest⟩ := List.forall_mem_cons.1 hrs
    have hrule : r.renamed ("_" ++ (g t ++ "_") ++ toString i) =
        (r.renamed ("_" ++ (t ++ "_") ++ toString i)).rename (retag g) := hr.renamed_retag ht i
    have hunify : Unification.unify (goal.rename (retag g))
        ((r.renamed ("_" ++ (t ++ "_") ++ toString i)).rename (retag g)).conclusion .empty =
        (Unification.unify goal (r.renamed ("_" ++ (t ++ "_") ++ toString i)).conclusion .empty).map
          (Substitution.rename (retag g)) := Unification.unify_rename hf goal _ .empty
    unfold rulesFrom
    dsimp only
    rw [hrule, ih (i + 1) hrest, hunify]
    cases Unification.unify goal (r.renamed ("_" ++ (t ++ "_") ++ toString i)).conclusion .empty <;>
      rfl

end RuleBase

/-! ## Later goals -/

open Classical in
/-- The tag of a goal with its number from two on raised; all others are kept. -/
noncomputable def raise (d : Nat) (t : String) : String :=
  if h : ∃ n : Nat, 2 ≤ n ∧ t = toString n then toString (h.choose + d) else t

theorem raise_toString (d : Nat) {n : Nat} (hn : 2 ≤ n) :
    raise d (toString n) = toString (n + d) := by
  have h : ∃ k : Nat, 2 ≤ k ∧ toString n = toString k := ⟨n, hn, rfl⟩
  unfold raise
  rw [dif_pos h, ← toString_inj h.choose_spec.2]

theorem raise_of_ne (d : Nat) {t : String} (h : ∀ n : Nat, 2 ≤ n → t ≠ toString n) :
    raise d t = t := by
  unfold raise
  rw [dif_neg]
  rintro ⟨n, hn, ht⟩
  exact h n hn ht

theorem raise_cases (d : Nat) (t : String) :
    (∃ n : Nat, 2 ≤ n ∧ t = toString n ∧ raise d t = toString (n + d)) ∨
      (∀ n : Nat, 2 ≤ n → t ≠ toString n) ∧ raise d t = t := by
  by_cases h : ∃ n : Nat, 2 ≤ n ∧ t = toString n
  · obtain ⟨n, hn, rfl⟩ := h
    exact .inl ⟨n, hn, rfl, raise_toString d hn⟩
  · have hne : ∀ n : Nat, 2 ≤ n → t ≠ toString n := fun n hn ht => h ⟨n, hn, ht⟩
    exact .inr ⟨hne, raise_of_ne d hne⟩

theorem injective_raise (d : Nat) : Injective (raise d) := by
  intro t u h
  rcases raise_cases d t with ⟨m, hm, rfl, ht⟩ | ⟨hne, ht⟩
  · rcases raise_cases d u with ⟨n, hn, rfl, hu⟩ | ⟨hne, hu⟩
    · rw [ht, hu] at h
      rw [Nat.add_right_cancel (toString_inj h)]
    · rw [ht, hu] at h
      exact absurd h.symm (hne (m + d) (Nat.le_add_right_of_le hm))
  · rcases raise_cases d u with ⟨n, hn, rfl, hu⟩ | ⟨_, hu⟩
    · rw [ht, hu] at h
      exact absurd h (hne (n + d) (Nat.le_add_right_of_le hn))
    · rwa [ht, hu] at h

/-- The tags of an explanation for those of a search: that of the first goal becomes the tag of
explanations, and later goals are numbered from where the search ended. -/
noncomputable def afresh (d : Nat) (t : String) : String := Equiv.swap "1" "why" (raise d t)

theorem ne_toString_of_isDigit {t : String} {c : Char} (hc : c ∈ t.toList) (hd : c.isDigit = false)
    (n : Nat) : t ≠ toString n := by
  rintro rfl
  rw [Nat.toString_eq_repr, Nat.toList_repr] at hc
  rw [Nat.isDigit_of_mem_toDigits (by decide) (by decide) hc] at hd
  cases hd

theorem afresh_one (d : Nat) : afresh d "1" = "why" := by
  have hone : ∀ n : Nat, 2 ≤ n → "1" ≠ toString n := by
    intro n hn h
    have hn1 : 1 = n := toString_inj h
    omega
  unfold afresh
  rw [raise_of_ne d hone]
  exact Equiv.swap_apply_left "1" "why"

theorem afresh_toString (d : Nat) {n : Nat} (hn : 2 ≤ n) :
    afresh d (toString n) = toString (n + d) := by
  unfold afresh
  rw [raise_toString d hn]
  refine Equiv.swap_apply_of_ne_of_ne ?_ ?_
  · intro h
    have hone : n + d = 1 := toString_inj h
    omega
  · exact (ne_toString_of_isDigit (c := 'w') (by decide) rfl (n + d)).symm

theorem injective_afresh (d : Nat) : Injective (afresh d) :=
  (Equiv.swap "1" "why").injective.comp (injective_raise d)

theorem underscore_not_mem_afresh (d : Nat) (t : String) (ht : '_' ∉ t.toList) :
    '_' ∉ (afresh d t).toList := by
  have hraise : '_' ∉ (raise d t).toList := by
    rcases raise_cases d t with ⟨n, _, _, hn⟩ | ⟨_, hn⟩
    · rw [hn]
      exact underscore_not_mem_toString _
    · rwa [hn]
  unfold afresh
  rw [Equiv.swap_apply_def]
  split
  · decide
  · split
    · decide
    · exact hraise

theorem injective_retag_afresh (d : Nat) : Injective (retag (afresh d)) :=
  injective_retag (injective_afresh d) (underscore_not_mem_afresh d)

/-- The rules of an explanation are those that a search tries for its first goal. -/
theorem RuleBase.rulesFor_why {b : RuleBase} (hb : ∀ r ∈ b.rules, r.Plain) {goal : Pattern}
    (hgoal : ∀ v ∈ goal.vars, '_' ∉ v.toList) (d : Nat) :
    b.rulesFor goal ("why" ++ "_") =
      (b.rulesFor goal (toString 1 ++ "_")).map (Rule.rename (retag (afresh d))) := by
  have hrules := rulesFor_retag (injective_retag_afresh d) hb goal (underscore_not_mem_toString 1)
  rw [rename_retag_of_plain hgoal] at hrules
  rw [← hrules]
  exact congrArg (fun t => b.rulesFor goal (t ++ "_")) (afresh_one d).symm

end Credence
