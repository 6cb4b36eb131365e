import Credence.Proofs.Pattern.Rename
import Credence.Proofs.Rule.Fresh
import Credence.Proofs.Substitution.Following
/-!
# Renaming apart

A suffix is appended to variables by a substitution, and a substitution follows chains of
bindings to their end. A variable whose name with the suffix is another variable of the
same patterns gets the name of that one, so the two are merged. Where no name is another
one with the suffix, and only there, the renamed patterns are a variant of the patterns,
and then every variable has just the suffix appended to it.
-/

namespace Credence

open Pattern

namespace Pattern

/-- Whether patterns become others when their variables are exchanged one for one. -/
def Variants (ps qs : List Pattern) : Prop :=
  ∃ f : String → String,
    (∀ v ∈ occurrencesList ps, ∀ w ∈ occurrencesList ps, f v = f w → v = w) ∧
      qs = ps.map (Pattern.rename f)

end Pattern

namespace Substitution

variable {ps : List Pattern} {suffix v : String}

/-- Whether no name of a list is another one of it with the suffix. -/
def Apart (vs : List String) (suffix : String) : Prop := ∀ v ∈ vs, v ++ suffix ∉ vs

theorem append_suffix_inj {v w : String} (h : v ++ suffix = w ++ suffix) : v = w := by
  have hchars := congrArg String.toList h
  rw [String.toList_append, String.toList_append] at hchars
  exact String.toList_inj.1 (List.append_cancel_right hchars)

theorem append_suffix_ne (hne : suffix ≠ "") : v ≠ v ++ suffix := by
  intro h
  have hchars := congrArg String.toList h
  rw [String.toList_append] at hchars
  exact hne (String.toList_eq_nil_iff.1 (List.self_eq_append_right.1 hchars))

/-- A suffix makes names longer, so appending it comes to an end on every pattern. -/
theorem acyclic_suffixing (hne : suffix ≠ "") (ps : List Pattern) :
    Acyclic (suffixing ps suffix) := by
  refine acyclic_iff.2 fun v hcycle => ?_
  have hlonger : ∀ u w, (suffixing ps suffix).Mentions u w →
      u.toList.length < w.toList.length := by
    rintro u w ⟨p, hp, hw, _⟩
    rw [Rule.get?_suffixing] at hp
    split at hp
    · cases hp
      rw [List.mem_singleton.1 hw, String.toList_append, List.length_append]
      have hpos : suffix.toList ≠ [] := fun h => hne (String.toList_eq_nil_iff.1 h)
      have := List.length_pos_iff.2 hpos
      omega
    · cases hp
  have hself := hcycle.lift (fun w => w.toList.length) hlonger
  rw [Relation.transGen_eq_self] at hself
  exact Nat.lt_irrefl _ hself

theorem value_suffixing (hne : suffix ≠ "") (hv : v ∈ occurrencesList ps) :
    (suffixing ps suffix).value v = (suffixing ps suffix).value (v ++ suffix) :=
  (acyclic_suffixing hne ps).solves_value v (.var (v ++ suffix))
    ((Rule.get?_suffixing ps suffix v).trans (if_pos hv))

/-- A variable of names apart has just the suffix appended to it. -/
theorem value_suffixing_of_apart (hne : suffix ≠ "") (h : Apart (occurrencesList ps) suffix)
    (hv : v ∈ occurrencesList ps) : (suffixing ps suffix).value v = .var (v ++ suffix) := by
  rw [value_suffixing hne hv]
  exact apply_free ((Rule.get?_suffixing ps suffix _).trans (if_neg (h v hv)))

theorem renameApart_eq_map_subst (ps : List Pattern) (suffix : String) :
    renameApart ps suffix = ps.map (subst (suffixing ps suffix).value) :=
  List.map_congr_left fun p _ => apply_eq_subst p

theorem renameApart_of_apart (hne : suffix ≠ "") (h : Apart (occurrencesList ps) suffix) :
    renameApart ps suffix = ps.map (Pattern.rename (· ++ suffix)) := by
  rw [renameApart_eq_map_subst]
  refine List.map_congr_left fun p hp => subst_congr fun v hv => ?_
  exact value_suffixing_of_apart hne h (mem_occurrencesList.2 ⟨p, hp, hv⟩)

/-- A variable and its name with the suffix are merged, which no exchange does. -/
theorem apart_of_variants (hne : suffix ≠ "") (h : Variants ps (renameApart ps suffix)) :
    Apart (occurrencesList ps) suffix := by
  obtain ⟨f, hinj, heq⟩ := h
  rw [renameApart_eq_map_subst] at heq
  have hvalue : ∀ v ∈ occurrencesList ps, (suffixing ps suffix).value v = .var (f v) := by
    intro v hv
    obtain ⟨p, hp, hv⟩ := mem_occurrencesList.1 hv
    exact eq_of_subst_eq (List.map_inj_left.1 heq p hp) v hv
  intro v hv hlonger
  have hmerged : Pattern.var (f v) = .var (f (v ++ suffix)) := by
    rw [← hvalue v hv, value_suffixing hne hv, hvalue _ hlonger]
  exact append_suffix_ne hne (hinj v hv _ hlonger (var.inj hmerged))

theorem variants_renameApart_iff (hne : suffix ≠ "") (ps : List Pattern) :
    Variants ps (renameApart ps suffix) ↔ Apart (occurrencesList ps) suffix :=
  ⟨apart_of_variants hne, fun h =>
    ⟨(· ++ suffix), fun _ _ _ _ => append_suffix_inj, renameApart_of_apart hne h⟩⟩

end Substitution

open Substitution

/-- The patterns of a rule, its conclusion first. -/
def Rule.patterns (r : Rule) : List Pattern := r.conclusion :: r.premises

/-- The patterns of a hypothesis, its prediction first. -/
def Hypothesis.patterns (h : Hypothesis) : List Pattern :=
  h.predicts :: h.statements ++ h.requires

theorem Hypothesis.patterns_renamed (h : Hypothesis) (suffix : String) :
    (h.renamed suffix).patterns = renameApart h.patterns suffix := by
  unfold patterns renamed renameApart
  rw [List.map_append, List.map_cons]

/-- Renaming apart comes to an end for every suffix. It appends the suffix to every variable and
nothing else, and its result is a variant, exactly if no variable is another one with the suffix;
so it is for the patterns of a rule or a hypothesis. -/
theorem renameApart_keepsApart_iff {suffix : String} (hne : suffix ≠ "") :
    (∀ ps, (∀ p, Substituted (suffixing ps suffix) p ((suffixing ps suffix).apply p)) ∧
      (renameApart ps suffix = ps.map (Pattern.rename (· ++ suffix)) ↔
        Apart (occurrencesList ps) suffix) ∧
      (Variants ps (renameApart ps suffix) ↔ Apart (occurrencesList ps) suffix)) ∧
    (∀ r : Rule, Variants r.patterns (r.renamed suffix).patterns ↔
      Apart (occurrencesList r.patterns) suffix) ∧
    ∀ h : Hypothesis, Variants h.patterns (h.renamed suffix).patterns ↔
      Apart (occurrencesList h.patterns) suffix := by
  refine ⟨fun ps => ⟨(acyclic_suffixing hne ps).substituted_apply, ⟨fun heq => ?_,
    renameApart_of_apart hne⟩, variants_renameApart_iff hne ps⟩, fun r =>
    variants_renameApart_iff hne r.patterns, fun h => ?_⟩
  · exact apart_of_variants hne ⟨(· ++ suffix), fun _ _ _ _ => append_suffix_inj, heq⟩
  · rw [h.patterns_renamed]
    exact variants_renameApart_iff hne h.patterns

/-- The variables `$X` and `$Y` are apart under `_1`. -/
theorem renameApart_keepsApart_pair :
    let p : Pattern := .link (.link .list) [.var "$X", .var "$Y"]
    "_1" ≠ "" ∧ Apart (occurrencesList [p]) "_1" ∧
      renameApart [p] "_1" = [.link (.link .list) [.var "$X_1", .var "$Y_1"]] := by
  intro p
  have hne : "_1" ≠ "" := by decide
  have hapart : Apart (occurrencesList [p]) "_1" := by
    unfold Apart
    decide
  exact ⟨hne, hapart, ((renameApart_keepsApart_iff hne).1 [p]).2.1.2 hapart⟩

/-- The variables `$A` and `$AB` are merged under `B`, in a list and in a rule. -/
theorem not_renameApart_keepsApart :
    let p : Pattern := .link (.link .list) [.var "$A", .var "$AB"]
    let r : Rule := ⟨.text "r", [p], .var "$A", .real 1.0, .null, .int 0, true⟩
    renameApart [p] "B" = [.link (.link .list) [.var "$ABB", .var "$ABB"]] ∧
      ¬ Variants [p] (renameApart [p] "B") ∧ ¬ Variants r.patterns (r.renamed "B").patterns := by
  intro p r
  have hmerged : ¬ Apart (occurrencesList [p]) "B" := by
    unfold Apart
    decide
  refine ⟨by decide, fun h => hmerged (apart_of_variants (by decide) h), fun h => ?_⟩
  have hrule : ¬ Apart (occurrencesList r.patterns) "B" := by
    unfold Apart
    decide
  exact hrule (apart_of_variants (by decide) h)

end Credence
