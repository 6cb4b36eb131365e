import Mathlib.Data.List.Basic
import Mathlib.Logic.Equiv.Basic
import Credence.Pattern.Variant
import Credence.Proofs.Pattern.Instance
/-!
# Renamed patterns

Renaming the variables of a pattern by an injective function keeps apart what differs,
so equal patterns stay the only equal ones and variables stay in their order. A key is the
text that is left when every variable is named by its place in that order, so variants keep
their key. A renaming that is injective on some names, and takes none of them to or from a
name that is to stay, is a part of a permutation of all names.
-/

namespace Credence

open Function (Injective)

theorem distinct_map {α β : Type} [DecidableEq α] [DecidableEq β] {f : α → β} (hf : Injective f)
    (xs : List α) : distinct (xs.map f) = (distinct xs).map f := by
  induction xs with
  | nil => rfl
  | cons x xs ih =>
    rw [List.map_cons]
    unfold distinct
    rw [ih, List.filter_map, List.map_cons]
    refine congrArg (fun ys => f x :: ys.map f) (List.filter_congr fun y _ => ?_)
    exact decide_eq_decide.2 (not_congr hf.eq_iff)

theorem idxOf_map {f : String → String} (hf : Injective f) (v : String) (vs : List String) :
    (vs.map f).idxOf (f v) = vs.idxOf v := by
  induction vs with
  | nil => rfl
  | cons w ws ih =>
    rw [List.map_cons, List.idxOf_cons, List.idxOf_cons, ih]
    simp only [beq_eq_decide, hf.eq_iff]

namespace Pattern

/-- The pattern with its variables renamed. -/
def rename (f : String → String) (p : Pattern) : Pattern := p.subst fun v => .var (f v)

variable {f g : String → String}

theorem rename_link (k : Kind) (cs : List Pattern) :
    (link k cs).rename f = link k (cs.map (rename f)) :=
  congrArg (link k) (substList_eq_map _ cs)

theorem rename_congr {p : Pattern} (h : ∀ v ∈ p.occurrences, f v = g v) :
    p.rename f = p.rename g := subst_congr fun v hv => congrArg var (h v hv)

theorem rename_of_fixed {p : Pattern} (h : ∀ v ∈ p.occurrences, f v = v) : p.rename f = p := by
  rw [rename_congr (g := id) h]
  exact subst_var p

theorem rename_of_isGround {p : Pattern} (h : p.isGround = true) : p.rename f = p :=
  subst_of_isGround h _

theorem subst_rename (σ : Valuation) (p : Pattern) :
    (p.rename f).subst σ = p.subst fun v => σ (f v) := subst_subst _ _ p

theorem rename_subst (σ : Valuation) (p : Pattern) :
    (p.subst σ).rename f = p.subst fun v => (σ v).rename f := subst_subst _ _ p

theorem rename_rename (f g : String → String) (p : Pattern) :
    (p.rename f).rename g = p.rename fun v => g (f v) := subst_rename _ p

theorem rename_injective (hf : Injective f) : Injective (rename f) := by
  intro p q h
  have hback : ∀ p : Pattern, (p.rename f).rename (Function.invFun f) = p := by
    intro p
    have hinv : ∀ v ∈ p.occurrences, Pattern.var (Function.invFun f (f v)) = .var v :=
      fun v _ => congrArg Pattern.var (Function.leftInverse_invFun hf v)
    exact (subst_rename _ p).trans ((subst_congr hinv).trans (subst_var p))
  rw [← hback p, h, hback q]

mutual

theorem occurrences_rename (p : Pattern) : (p.rename f).occurrences = p.occurrences.map f := by
  cases p with
  | var v => rfl
  | node k n => rfl
  | link k cs =>
    rw [rename_link]
    exact occurrencesList_rename cs

theorem occurrencesList_rename (cs : List Pattern) :
    occurrencesList (cs.map (rename f)) = (occurrencesList cs).map f := by
  cases cs with
  | nil => rfl
  | cons c cs =>
    rw [List.map_cons]
    unfold occurrencesList
    rw [List.map_append, occurrences_rename c, occurrencesList_rename cs]

end

theorem mem_occurrences_rename (hf : Injective f) {v : String} {p : Pattern} :
    f v ∈ (p.rename f).occurrences ↔ v ∈ p.occurrences := by
  rw [occurrences_rename, List.mem_map_of_injective hf]

theorem vars_rename (hf : Injective f) (p : Pattern) : (p.rename f).vars = p.vars.map f := by
  unfold vars
  rw [occurrences_rename, distinct_map hf]

theorem isGround_rename (p : Pattern) : (p.rename f).isGround = p.isGround := by
  unfold isGround
  rw [occurrences_rename, List.isEmpty_map]

/-! ## Keys -/

/-- The name of a variable by its place in a list. -/
def ordinal (names : List String) (v : String) : String := "$#" ++ toString (names.idxOf v)

mutual

theorem numbered_eq_render (names : List String) (p : Pattern) :
    p.numbered names = (p.rename (ordinal names)).render := by
  cases p with
  | var v =>
    show _ = (ordinal names v).toList
    unfold ordinal
    rw [String.toList_append]
    rfl
  | node k n => rfl
  | link k cs =>
    rw [rename_link]
    unfold numbered render
    rw [numberedList_eq_renderList names cs]

theorem numberedList_eq_renderList (names : List String) (cs : List Pattern) :
    numberedList names cs = renderList (cs.map (rename (ordinal names))) := by
  cases cs with
  | nil => rfl
  | cons c cs =>
    rw [List.map_cons]
    unfold numberedList renderList
    rw [numbered_eq_render names c, numberedList_eq_renderList names cs]

end

/-- The key of a pattern is its text once every variable is named by its place among them. -/
theorem variantKey_eq_toText (p : Pattern) :
    p.variantKey = (p.rename (ordinal p.vars)).toText :=
  congrArg String.ofList (numbered_eq_render p.vars p)

/-- A pattern and its renaming have one key. -/
theorem variantKey_rename (hf : Injective f) (p : Pattern) :
    (p.rename f).variantKey = p.variantKey := by
  have hplaces : ∀ v, ordinal (p.vars.map f) (f v) = ordinal p.vars v := by
    intro v
    unfold ordinal
    rw [idxOf_map hf]
  rw [variantKey_eq_toText, variantKey_eq_toText, vars_rename hf, rename_rename]
  exact congrArg toText (rename_congr fun v _ => hplaces v)

end Pattern

/-! ## Renaming some names only -/

/-- The renaming that changes names of a list as given and leaves all others alone. -/
def renamingOn (vs : List String) (ρ : String → String) (v : String) : String :=
  if v ∈ vs then ρ v else v

/-- A renaming that is injective on some names, and has none of the names that are to stay on
either side, is a part of a permutation that keeps them. -/
theorem exists_perm {Stays : String → Prop} {ρ : String → String} {vs : List String}
    (hinj : ∀ v ∈ vs, ∀ w ∈ vs, ρ v = ρ w → v = w) (hleft : ∀ v ∈ vs, ¬ Stays v)
    (hright : ∀ v ∈ vs, ¬ Stays (ρ v)) :
    ∃ π : Equiv.Perm String, (∀ v ∈ vs, π v = ρ v) ∧ ∀ u, Stays u → π u = u := by
  induction vs with
  | nil => exact ⟨.refl String, List.forall_mem_nil _, fun _ _ => rfl⟩
  | cons v vs ih =>
    have hrest : ∀ {w}, w ∈ vs → w ∈ v :: vs := List.mem_cons_of_mem v
    obtain ⟨π, hπ, hstay⟩ := ih (fun w hw x hx => hinj w (hrest hw) x (hrest hx))
      (fun w hw => hleft w (hrest hw)) (fun w hw => hright w (hrest hw))
    have hv : v ∈ v :: vs := List.mem_cons_self ..
    refine ⟨π.trans (Equiv.swap (π v) (ρ v)), fun w hw => ?_, fun u hu => ?_⟩
    · show Equiv.swap (π v) (ρ v) (π w) = ρ w
      by_cases hwv : w = v
      · rw [hwv, Equiv.swap_apply_left]
      · have hw' : w ∈ vs := (List.mem_cons.1 hw).resolve_left hwv
        rw [hπ w hw', Equiv.swap_apply_of_ne_of_ne]
        · rw [← hπ w hw']
          exact fun h => hwv (π.injective h)
        · exact fun h => hwv (hinj w hw v hv h)
    · show Equiv.swap (π v) (ρ v) (π u) = u
      rw [hstay u hu, Equiv.swap_apply_of_ne_of_ne]
      · rintro rfl
        refine hleft v hv ?_
        rwa [← π.injective (hstay _ hu)]
      · rintro rfl
        exact hright v hv hu

end Credence
