import Credence.Proofs.Pattern.Key
import Credence.Proofs.Rule.Renaming
import Credence.Proofs.Table
/-!
# Fresh variables

The variables of a rule are renamed by two numbers: that of the goal it is tried for
and its own place among the rules. Goals are numbered in ascending order, so names
made for a goal are unlike all names made before, and unlike any name that does not
end like a made one. A rule without such names is renamed variable by variable, and
any valuation of its variables can be put beside one of the names in use.
-/

namespace Credence

open Pattern Substitution

/-! ## Marks -/

/-- The suffix for the rule at a place, tried under a tag. -/
def tagged (tag : String) (i : Nat) : String := "_" ++ (tag ++ "_") ++ toString i

/-- The suffix for the rule at a place, tried for the goal of a number. -/
def mark (n i : Nat) : String := "_" ++ (toString n ++ "_") ++ toString i

theorem underscore_not_mem_toString (n : Nat) : '_' ∉ (toString n).toList := by
  rw [Nat.toString_eq_repr, Nat.toList_repr]
  exact Nat.underscore_not_in_toDigits

theorem reverse_append_tagged (v tag : String) (i : Nat) :
    (v ++ tagged tag i).toList.reverse = (toString i).toList.reverse ++ '_' ::
      (tag.toList.reverse ++ '_' :: v.toList.reverse) := by
  unfold tagged
  simp [String.toList_append]

/-- A tagged name shows its tag and its place. -/
theorem append_tagged_inj {v w t u : String} {i j : Nat} (ht : '_' ∉ t.toList)
    (hu : '_' ∉ u.toList) (h : v ++ tagged t i = w ++ tagged u j) : v = w ∧ t = u ∧ i = j := by
  have hsep : ∀ cs : List Char, '_' ∉ cs → ∀ c ∈ cs.reverse, c ≠ '_' := by
    rintro cs hcs c hc rfl
    exact hcs (List.mem_reverse.1 hc)
  have hrev : (v ++ tagged t i).toList.reverse = (w ++ tagged u j).toList.reverse := by rw [h]
  rw [reverse_append_tagged, reverse_append_tagged] at hrev
  obtain ⟨hi, _, hrev⟩ := append_cons_inj (hsep _ (underscore_not_mem_toString i))
    (hsep _ (underscore_not_mem_toString j)) (not_not_intro rfl) (not_not_intro rfl) hrev
  obtain ⟨ht, _, hv⟩ := append_cons_inj (hsep _ ht) (hsep _ hu) (not_not_intro rfl)
    (not_not_intro rfl) hrev
  exact ⟨String.toList_inj.1 (List.reverse_inj.1 hv), String.toList_inj.1 (List.reverse_inj.1 ht),
    toString_injective (List.reverse_inj.1 hi)⟩

/-- A marked name shows its mark. -/
theorem append_mark_inj {v w : String} {n i m j : Nat} (h : v ++ mark n i = w ++ mark m j) :
    v = w ∧ n = m ∧ i = j := by
  obtain ⟨hv, hn, hi⟩ := append_tagged_inj (underscore_not_mem_toString n)
    (underscore_not_mem_toString m) h
  exact ⟨hv, toString_injective (congrArg String.toList hn), hi⟩

/-- Whether a name ends with no mark. -/
def Unmarked (v : String) : Prop := ∀ w n i, v ≠ w ++ mark n i

theorem unmarked_of_not_mem {v : String} (h : '_' ∉ v.toList) : Unmarked v := by
  rintro w n i rfl
  apply h
  unfold mark
  simp [String.toList_append]

/-- Whether a name is in use before the goal after a number: any mark it has is up to that one. -/
def Known (n : Nat) (v : String) : Prop := ∀ w m i, v = w ++ mark m i → m ≤ n

theorem Unmarked.known {v : String} (h : Unmarked v) (n : Nat) : Known n v :=
  fun w m i hv => absurd hv (h w m i)

theorem Known.mono {m n : Nat} (hmn : m ≤ n) {v : String} (h : Known m v) : Known n v :=
  fun w k i hv => Nat.le_trans (h w k i hv) hmn

theorem known_append_mark (v : String) (n i : Nat) : Known n (v ++ mark n i) := by
  intro w m j hv
  obtain ⟨_, rfl, _⟩ := append_mark_inj hv
  exact Nat.le_refl _

/-- A name in use is none of those made for a later goal. -/
theorem Known.ne_append_mark {n m : Nat} {v : String} (h : Known n v) (hnm : n < m) (w : String)
    (i : Nat) : v ≠ w ++ mark m i :=
  fun hv => absurd (h w m i hv) (Nat.not_le.2 hnm)

/-! ## Renaming variable by variable -/

namespace Rule

/-- The variables of a rule. -/
def names (r : Rule) : List String := occurrencesList (r.conclusion :: r.premises)

theorem mem_names_of_conclusion {r : Rule} {v : String} (h : v ∈ r.conclusion.occurrences) :
    v ∈ r.names := List.mem_append_left _ h

theorem mem_names_of_premise {r : Rule} {p : Pattern} (hp : p ∈ r.premises) {v : String}
    (h : v ∈ p.occurrences) : v ∈ r.names :=
  List.mem_append_right _ (mem_occurrencesList.2 ⟨p, hp, h⟩)

theorem get?_suffixing (ps : List Pattern) (suffix v : String) :
    (suffixing ps suffix).get? v =
      if v ∈ occurrencesList ps then some (.var (v ++ suffix)) else none := by
  unfold suffixing Table.ofList
  rw [Table.get?_foldl_insert (f := fun v => .var (v ++ suffix))]
  · refine if_congr ?_ rfl rfl
    rw [List.map_map, List.mem_map]
    simp [varsOf, mem_distinct]
  · intro e he
    obtain ⟨w, _, rfl⟩ := List.mem_map.1 he
    rfl

/-- A rule none of whose variables ends like a suffix is renamed by appending it to each. -/
theorem suffixed_of_free {r : Rule} {suffix : String} (h : ∀ v ∈ r.names, ∀ w, v ≠ w ++ suffix)
    {v : String} (hv : v ∈ r.names) : r.suffixed suffix v = .var (v ++ suffix) := by
  have hfree : ∀ w, (suffixing (r.conclusion :: r.premises) suffix).get? (w ++ suffix) = none := by
    intro w
    rw [get?_suffixing, if_neg]
    exact fun hin => h _ hin w rfl
  -- No variable that carries the suffix is one of the rule, so none is renamed twice.
  have hacyclic : Acyclic (suffixing (r.conclusion :: r.premises) suffix) := by
    refine ⟨fun _ => 0, fun u p hu w hw hbound => ?_⟩
    rw [get?_suffixing] at hu
    split at hu
    · cases hu
      rw [List.mem_singleton.1 hw] at hbound
      exact absurd (hfree u) hbound
    · cases hu
  have hget : (suffixing (r.conclusion :: r.premises) suffix).get? v = some (.var (v ++ suffix)) :=
    (get?_suffixing _ _ v).trans (if_pos hv)
  unfold suffixed
  rw [hacyclic.solves_value v _ hget]
  refine follow_of_resolved (p := .var (v ++ suffix)) (fun w hw => ?_) _
  rw [List.mem_singleton.1 hw]
  exact hfree v

theorem suffixed_mark {r : Rule} (h : ∀ v ∈ r.names, Unmarked v) {v : String}
    (hv : v ∈ r.names) (n i : Nat) : r.suffixed (mark n i) v = .var (v ++ mark n i) :=
  suffixed_of_free (fun u hu w => h u hu w n i) hv

/-- All variables of a renamed rule are in use from the goal on that it is renamed for. -/
theorem over_renamed {r : Rule} (h : ∀ v ∈ r.names, Unmarked v) (n i : Nat) :
    (r.renamed (mark n i)).conclusion.Over (Known n) ∧
      ∀ p ∈ (r.renamed (mark n i)).premises, p.Over (Known n) := by
  have hover : ∀ p : Pattern, (∀ v ∈ p.occurrences, v ∈ r.names) →
      (p.subst (r.suffixed (mark n i))).Over (Known n) := by
    intro p hp w hw
    obtain ⟨v, hv, hw⟩ := (Unification.mem_occurrences_subst _ _ w).1 hw
    rw [suffixed_mark h (hp v hv)] at hw
    rw [List.mem_singleton.1 hw]
    exact known_append_mark v n i
  refine ⟨?_, fun p hp => ?_⟩
  · rw [conclusion_renamed]
    exact hover _ fun v hv => mem_names_of_conclusion hv
  · rw [premises_renamed] at hp
    obtain ⟨q, hq, rfl⟩ := List.mem_map.1 hp
    exact hover q fun v hv => mem_names_of_premise hq hv

/-- A valuation that reads the marked variables of a rule by one valuation, and all other names by
another. -/
def beside (r : Rule) (suffix : String) (τ σ : Valuation) : Valuation := fun u =>
  match r.names.find? fun v => v ++ suffix = u with
  | some v => τ v
  | none => σ u

theorem beside_append {r : Rule} {suffix : String} {τ σ : Valuation} {v : String}
    (hv : v ∈ r.names) : r.beside suffix τ σ (v ++ suffix) = τ v := by
  unfold beside
  split
  · next w hw =>
    have heq := List.find?_some hw
    rw [(String.append_left_inj suffix).1 (of_decide_eq_true heq)]
  · next hnone =>
    have hall := List.find?_eq_none.1 hnone v hv
    simp at hall

theorem beside_of_ne {r : Rule} {suffix : String} {τ σ : Valuation} {u : String}
    (hu : ∀ v, u ≠ v ++ suffix) : r.beside suffix τ σ u = σ u := by
  unfold beside
  split
  · next w hw =>
    have heq := List.find?_some hw
    exact absurd (of_decide_eq_true heq).symm (hu w)
  · rfl

theorem beside_of_known {r : Rule} {n m i : Nat} {τ σ : Valuation} {u : String} (hu : Known n u)
    (hnm : n < m) : r.beside (mark m i) τ σ u = σ u :=
  beside_of_ne fun w => hu.ne_append_mark hnm w i

theorem subst_beside {r : Rule} {suffix : String} (h : ∀ v ∈ r.names, ∀ w, v ≠ w ++ suffix)
    (τ σ : Valuation) {p : Pattern} (hp : ∀ v ∈ p.occurrences, v ∈ r.names) :
    p.subst (fun v => (r.suffixed suffix v).subst (r.beside suffix τ σ)) = p.subst τ := by
  refine subst_congr fun v hv => ?_
  rw [suffixed_of_free h (hp v hv)]
  exact beside_append (hp v hv)

/-- The instances of a rule are those of the renamed rule. -/
theorem conclusion_beside_of_free {r : Rule} {suffix : String}
    (h : ∀ v ∈ r.names, ∀ w, v ≠ w ++ suffix) (τ σ : Valuation) :
    (r.renamed suffix).conclusion.subst (r.beside suffix τ σ) = r.conclusion.subst τ := by
  rw [subst_conclusion_renamed]
  exact subst_beside h τ σ fun v hv => mem_names_of_conclusion hv

theorem conclusion_beside {r : Rule} (h : ∀ v ∈ r.names, Unmarked v) (n i : Nat)
    (τ σ : Valuation) :
    (r.renamed (mark n i)).conclusion.subst (r.beside (mark n i) τ σ) = r.conclusion.subst τ :=
  conclusion_beside_of_free (fun u hu w => h u hu w n i) τ σ

theorem premises_beside {r : Rule} (h : ∀ v ∈ r.names, Unmarked v) (n i : Nat)
    (τ σ : Valuation) :
    (r.renamed (mark n i)).premises.map (subst (r.beside (mark n i) τ σ)) =
      r.premises.map (subst τ) := by
  rw [subst_premises_renamed]
  exact List.map_congr_left fun p hp =>
    subst_beside (fun u hu w => h u hu w n i) τ σ fun v hv => mem_names_of_premise hp hv

end Rule

/-! ## Rules for a goal -/

namespace RuleBase

theorem exists_mem_rulesFrom {goal : Pattern} {tag : String} {rs : List Rule} {r : Rule}
    (h : r ∈ rs) (i : Nat) :
    ∃ j : Nat, Unification.unify goal (r.renamed ("_" ++ tag ++ toString j)).conclusion .empty ≠ none →
      r.renamed ("_" ++ tag ++ toString j) ∈ rulesFrom goal tag i rs := by
  induction rs generalizing i with
  | nil => cases h
  | cons r₁ rs ih =>
    rcases List.mem_cons.1 h with rfl | h
    · refine ⟨i, fun hu => ?_⟩
      unfold rulesFrom
      dsimp only
      split
      · exact List.mem_cons_self ..
      · next hnone => exact absurd hnone hu
    · obtain ⟨j, hj⟩ := ih h (i + 1)
      refine ⟨j, fun hu => ?_⟩
      unfold rulesFrom
      dsimp only
      split
      · exact List.mem_cons_of_mem _ (hj hu)
      · exact hj hu

/-- Every enabled rule is tried, renamed for the goal, if its conclusion unifies with it. -/
theorem exists_mem_rulesFor {b : RuleBase} {r : Rule} (hr : r ∈ b.rules) (he : r.enabled = true)
    (goal : Pattern) (n : Nat) :
    ∃ i, Unification.unify goal (r.renamed (mark n i)).conclusion .empty ≠ none →
      r.renamed (mark n i) ∈ b.rulesFor goal (toString n ++ "_") :=
  exists_mem_rulesFrom (mem_inOrder.2 ⟨hr, he⟩) 0

/-- Whether the conclusion of a rule does not unify with a goal, whatever its place. -/
def Fails (goal : Pattern) (tag : String) (r : Rule) : Prop :=
  ∃ j : Nat, Unification.unify goal (r.renamed ("_" ++ tag ++ toString j)).conclusion .empty = none

/-- The first rule that is tried for a goal comes after such whose conclusions do not unify with it,
and if there is none this holds of all of them. -/
theorem rulesFrom_cases (goal : Pattern) (tag : String) (i : Nat) (rs : List Rule) :
    (rulesFrom goal tag i rs = [] ∧ ∀ r ∈ rs, Fails goal tag r) ∨
      ∃ before r after rest, rs = before ++ r :: after ∧ (∀ b ∈ before, Fails goal tag b) ∧
        rulesFrom goal tag i rs =
          r.renamed ("_" ++ tag ++ toString (i + before.length)) :: rest ∧
        Unification.unify goal
          (r.renamed ("_" ++ tag ++ toString (i + before.length))).conclusion .empty ≠ none := by
  induction rs generalizing i with
  | nil => exact .inl ⟨rfl, nofun⟩
  | cons r rs ih =>
    unfold rulesFrom
    dsimp only
    cases hr : Unification.unify goal (r.renamed ("_" ++ tag ++ toString i)).conclusion .empty with
    | some θ => exact .inr ⟨[], r, rs, _, rfl, nofun, rfl, by
        rw [show i + ([] : List Rule).length = i from rfl, hr]
        exact Option.some_ne_none θ⟩
    | none =>
      rcases ih (i + 1) with ⟨hnil, hall⟩ | ⟨before, q, after, rest, rfl, hbefore, hfirst, hq⟩
      · exact .inl ⟨hnil, List.forall_mem_cons.2 ⟨⟨i, hr⟩, hall⟩⟩
      · have hplace : i + 1 + before.length = i + (r :: before).length := by
          rw [List.length_cons, Nat.add_right_comm, Nat.add_assoc]
        rw [hplace] at hfirst hq
        exact .inr ⟨r :: before, q, after, rest, rfl,
          List.forall_mem_cons.2 ⟨⟨i, hr⟩, hbefore⟩, hfirst, hq⟩

end RuleBase

end Credence
