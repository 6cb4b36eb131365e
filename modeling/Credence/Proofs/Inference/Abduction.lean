import Credence.Inference.Abduction
import Credence.Proofs.Rule.Made
import Credence.Proofs.Store.Rename
import Credence.Proofs.Store.Scan
/-!
# Abduction from renamed observations

Hypotheses are renamed before they are tried, so the names in an explanation are those of
the observation and names made for hypotheses. A renaming that leaves the latter alone
changes no support and no plausibility, only the variables in the texts and bindings.
-/

namespace Credence

open Function (Injective)
open Pattern Substitution

variable {f g : String → String}

/-! ## Questions that go equally well -/

/-- Whether two questions count the same lookups and fail with the same error or have related
answers. -/
def Reading.Alongside {α β : Type} (R : α → β → Prop) (x : Reading α) (y : Reading β) : Prop :=
  ∀ n, Equally R (StateT.run (ExceptT.run x) n).1 (StateT.run (ExceptT.run y) n).1 ∧
    (StateT.run (ExceptT.run y) n).2 = (StateT.run (ExceptT.run x) n).2

namespace Reading

variable {α β γ δ : Type} {R : α → β → Prop} {S : γ → δ → Prop}

theorem alongside_pure {a : α} {b : β} (h : R a b) :
    Alongside R (pure a : Reading α) (pure b : Reading β) := fun _ => ⟨.ok h, rfl⟩

theorem Alongside.bind {x : Reading α} {y : Reading β} {k : α → Reading γ} {l : β → Reading δ}
    (h : Alongside R x y) (hk : ∀ a b, R a b → Alongside S (k a) (l b)) :
    Alongside S (x >>= k) (y >>= l) := by
  intro n
  obtain ⟨hequal, hcount⟩ := h n
  rw [Store.run_question_bind, Store.run_question_bind]
  generalize StateT.run (ExceptT.run x) n = r at hequal hcount
  generalize StateT.run (ExceptT.run y) n = r' at hequal hcount
  obtain ⟨o, m⟩ := r
  obtain ⟨o', m'⟩ := r'
  obtain rfl : m' = m := hcount
  cases hequal with
  | ok hab => exact hk _ _ hab m'
  | error e => exact ⟨.error e, rfl⟩

theorem alongside_refl (x : Reading α) : Alongside Eq x x := by
  intro n
  refine ⟨?_, rfl⟩
  cases (StateT.run (ExceptT.run x) n).1 with
  | error e => exact .error e
  | ok a => exact .ok rfl

/-- What goes on in related ways after the same question. -/
theorem alongside_bind (x : Reading α) {k : α → Reading γ} {l : α → Reading δ}
    (h : ∀ a, Alongside S (k a) (l a)) : Alongside S (x >>= k) (x >>= l) :=
  (alongside_refl x).bind fun a _ hab => hab ▸ h a

/-- Questions that fail at once with the same error. -/
theorem alongside_lift_error (e : Error) (k : α → Reading γ) (l : β → Reading δ) :
    Alongside S (liftM (.error e : Except Error α) >>= k)
      (liftM (.error e : Except Error β) >>= l) :=
  fun _ => ⟨.error e, rfl⟩

end Reading

/-! ## Lists -/

/-- Sorting by what related items agree on keeps them together. -/
theorem forall₂_mergeSort {α β : Type} {R : α → β → Prop} {le : α → α → Bool} {le' : β → β → Bool}
    (hle : ∀ a b a' b', R a b → R a' b' → le' b b' = le a a') {xs : List α} {ys : List β}
    (h : List.Forall₂ R xs ys) : List.Forall₂ R (xs.mergeSort le) (ys.mergeSort le') := by
  obtain ⟨hlen, hzip⟩ := List.forall₂_iff_zip.1 h
  -- The pairs can be sorted by either side, with the same outcome.
  have hxs : ((xs.zip ys).mergeSort fun z z' => le z.1 z'.1).map Prod.fst = xs.mergeSort le := by
    rw [List.map_mergeSort (s := le) fun _ _ _ _ => rfl, List.map_fst_zip hlen.le]
  have hys : ((xs.zip ys).mergeSort fun z z' => le z.1 z'.1).map Prod.snd = ys.mergeSort le' := by
    rw [List.map_mergeSort (s := le') fun z hz z' hz' => (hle _ _ _ _ (hzip hz) (hzip hz')).symm,
      List.map_snd_zip hlen.ge]
  rw [← hxs, ← hys, List.forall₂_map_left_iff, List.forall₂_map_right_iff, List.forall₂_same]
  exact fun z hz => hzip (List.mem_mergeSort.1 hz)

namespace Abduction

/-! ## What plausibility rests on -/

section Support

variable (hf : Injective f)
include hf

theorem support_rename (s : Store) (useUncertainty : Bool) (c : Pattern) :
    support s useUncertainty (c.rename f) = support s useUncertainty c := by
  unfold support Reading.matchesFrom
  rw [show Store.lookupsFor (c.rename f) .empty = _ from Store.lookupsFor_rename hf c .empty,
    show s.matchesFrom (c.rename f) .empty = _ from Store.matchesFrom_rename hf s c .empty]
  cases s.matchesFrom c .empty with
  | error e => rfl
  | ok ms =>
    have hids : (ms.map (Match.rename f)).map Match.atomId = ms.map Match.atomId := by
      rw [List.map_map]
      rfl
    exact congrArg (fun ids => Reading.count (Store.lookupsFor c .empty) >>= fun _ =>
      (pure (strongest (strengthOf s useUncertainty) ids) : Reading _)) hids

theorem supports_rename (s : Store) (useUncertainty : Bool) (cs : List Pattern) :
    supports s useUncertainty (cs.map (Pattern.rename f)) = supports s useUncertainty cs := by
  induction cs with
  | nil => rfl
  | cons c cs ih =>
    rw [List.map_cons]
    unfold supports
    rw [support_rename hf, ih]

end Support

theorem confirm_rename (s : Store) (useUncertainty : Bool) (ps : List Pattern) (x : Float) :
    confirm s useUncertainty (ps.map (Pattern.rename f)) x = confirm s useUncertainty ps x := by
  induction ps generalizing x with
  | nil => rfl
  | cons p ps ih =>
    rw [List.map_cons]
    unfold confirm
    rw [isGround_rename, funext ih]
    cases hp : p.isGround with
    | false => rfl
    | true => rw [rename_of_isGround hp]

/-! ## Names -/

/-- Whether a name is made for the hypothesis of a candidate. -/
def Makes (candidates : List Candidate) (u : String) : Prop :=
  ∃ c ∈ candidates, ∃ h, c.hypothesis = .ok h ∧
    ∃ v ∈ occurrencesList (h.predicts :: h.statements ++ h.requires), ∃ i : Nat,
      u = v ++ ("_h" ++ toString i)

theorem underscore_of_makes {candidates : List Candidate} {u : String} (h : Makes candidates u) :
    '_' ∈ u.toList := by
  obtain ⟨_, _, h, _, v, _, i, rfl⟩ := h
  simp [String.toList_append]

/-- Whether the variables of a hypothesis are all of a sort. -/
structure Over (V : String → Prop) (h : Hypothesis) : Prop where
  predicts : h.predicts.Over V
  statements : ∀ p ∈ h.statements, p.Over V
  requires : ∀ p ∈ h.requires, p.Over V

theorem Over.mono {V W : String → Prop} (hVW : ∀ u, V u → W u) {h : Hypothesis} (hh : Over V h) :
    Over W h where
  predicts u hu := hVW u (hh.predicts u hu)
  statements p hp u hu := hVW u (hh.statements p hp u hu)
  requires p hp u hu := hVW u (hh.requires p hp u hu)

theorem over_makes {candidates : List Candidate} {c : Candidate} (hc : c ∈ candidates)
    {h : Hypothesis} (hh : c.hypothesis = .ok h) (i : Nat) :
    Over (Makes candidates) (h.renamed ("_h" ++ toString i)) := by
  have hover : ∀ p ∈ h.predicts :: h.statements ++ h.requires,
      ((suffixing (h.predicts :: h.statements ++ h.requires) ("_h" ++ toString i)).apply p).Over
        (Makes candidates) := by
    intro p hp u hu
    obtain ⟨v, hv, rfl⟩ := over_suffixing (fun v hv => mem_occurrencesList.2 ⟨p, hp, hv⟩) _ u hu
    exact ⟨c, hc, h, hh, v, hv, i, rfl⟩
  refine ⟨hover _ (by simp), fun p hp => ?_, fun p hp => ?_⟩
  · obtain ⟨q, hq, rfl⟩ := List.mem_map.1 hp
    exact hover q (by simp [hq])
  · obtain ⟨q, hq, rfl⟩ := List.mem_map.1 hp
    exact hover q (by simp [hq])

/-! ## Scores -/

/-- Explanations that are the same but for a renaming in the text and the bindings. -/
structure Scored.Renamed (f : String → String) (h h' : Scored) : Prop where
  statement : ∃ ps : List Pattern, h.statement = " AND ".intercalate (ps.map toText) ∧
    h'.statement = " AND ".intercalate ((ps.map (Pattern.rename f)).map toText)
  others : h' = { h with
    statement := h'.statement
    bindings := h.bindings.relabel f (Pattern.rename f) }

/-- Findings that are the same but for a renaming in the texts and the bindings. -/
structure Result.Renamed (f : String → String) (r r' : Result) : Prop where
  outcome : r'.outcome = r.outcome
  observation : r'.observation = r.observation.rename f
  hypotheses : List.Forall₂ (Scored.Renamed f) r.hypotheses r'.hypotheses

theorem relabel_resolve {V : String → Prop} (hfg : ∀ u, V u → f u = g u) {θ : Substitution}
    (hθ : θ.Over V) {names : List String} (hn : ∀ v ∈ names, V v) :
    (θ.resolve names).relabel f (Pattern.rename f) =
      (θ.resolve names).relabel g (Pattern.rename g) := by
  refine congrArg Table.mk (List.map_congr_left fun e he => ?_)
  obtain ⟨v, hv, hbound⟩ := List.mem_filterMap.1 (Table.mem_of_mem_ofList he)
  obtain ⟨p, hp, rfl⟩ := Option.map_eq_some_iff.1 hbound
  have hover := hθ.apply (hθ.values v p hp)
  exact Prod.ext (hfg v (hn v hv)) (rename_congr fun u hu => hfg u (hover u hu))

variable {V : String → Prop}

theorem score_rename (hf : Injective f) (hfg : ∀ u, V u → f u = g u) (s : Store)
    (useUncertainty : Bool) {h : Hypothesis} (hfix : Over (fun u => f u = u ∧ V u) h)
    {θ : Substitution} (hθ : θ.Over V) {observation : Pattern} (ho : observation.Over V) :
    Reading.Alongside (Scored.Renamed g) (score s useUncertainty h θ observation)
      (score s useUncertainty h (θ.rename f) (observation.rename f)) := by
  have happly : ∀ ps : List Pattern, (∀ p ∈ ps, p.Over fun u => f u = u ∧ V u) →
      ps.map (θ.rename f).apply = (ps.map θ.apply).map (Pattern.rename f) := by
    intro ps hps
    rw [List.map_map]
    refine List.map_congr_left fun p hp => ?_
    have happly := apply_rename hf θ p
    rwa [rename_of_fixed fun u hu => (hps p hp u hu).1] at happly
  have htexts : (h.statements.map θ.apply).map (Pattern.rename f) =
      (h.statements.map θ.apply).map (Pattern.rename g) := by
    refine List.map_congr_left fun p hp => ?_
    obtain ⟨q, hq, rfl⟩ := List.mem_map.1 hp
    have hover := hθ.apply fun u hu => (hfix.statements q hq u hu).2
    exact rename_congr fun u hu => hfg u (hover u hu)
  have hbindings : (θ.rename f).resolve (observation.rename f).vars =
      (θ.resolve observation.vars).relabel g (Pattern.rename g) := by
    rw [vars_rename hf, resolve_rename hf]
    exact relabel_resolve hfg hθ fun v hv => ho v (mem_vars.1 hv)
  unfold score
  rw [happly _ hfix.statements, happly _ hfix.requires, supports_rename hf, hbindings]
  refine Reading.alongside_bind _ fun ⟨xs, required⟩ => ?_
  dsimp only
  rw [confirm_rename, htexts]
  exact Reading.alongside_bind _ fun y => Reading.alongside_pure ⟨⟨_, rfl, rfl⟩, rfl⟩

/-- Candidates explain a renamed observation as they explain the observation. -/
theorem examine_rename (hf : Injective f) (hfg : ∀ u, V u → f u = g u) (s : Store)
    (params : Params) {observation : Pattern} (ho : observation.Over V) {candidates : List Candidate}
    (hfix : ∀ c ∈ candidates, ∀ h, c.hypothesis = .ok h → ∀ i : Nat,
      Over (fun u => f u = u ∧ V u) (h.renamed ("_h" ++ toString i)))
    (index : Nat) {scored scored' : List Scored}
    (hscored : List.Forall₂ (Scored.Renamed g) scored scored') :
    Reading.Alongside (fun x x' => x'.1 = x.1 ∧ List.Forall₂ (Scored.Renamed g) x.2 x'.2)
      (examine s params observation index scored candidates)
      (examine s params (observation.rename f) index scored' candidates) := by
  induction candidates generalizing index scored scored' with
  | nil => exact Reading.alongside_pure ⟨rfl, hscored⟩
  | cons c cs ih =>
    obtain ⟨hc, hcs⟩ := List.forall_mem_cons.1 hfix
    unfold examine
    rw [← hscored.length_eq]
    cases hh : c.hypothesis with
    | error e => exact Reading.alongside_lift_error e _ _
    | ok h =>
      have hover := hc h hh index
      show Reading.Alongside _ (if scored.length ≥ params.maxResults then _ else _)
        (if scored.length ≥ params.maxResults then _ else _)
      split
      · exact Reading.alongside_pure ⟨rfl, hscored⟩
      · have hunify := Unification.unify_rename_left hf observation
          (rename_of_fixed fun u hu => (hover.predicts u hu).1) .empty
        have hempty : Substitution.rename f .empty = .empty := rfl
        rw [hempty] at hunify
        rw [hunify]
        cases hθ : Unification.unify observation (h.renamed ("_h" ++ toString index)).predicts
            .empty with
        | none => exact ih hcs (index + 1) hscored
        | some θ =>
          have hθ := Unification.over_unify acyclic_empty (over_empty V) ho
            (fun u hu => (hover.predicts u hu).2) hθ
          refine (score_rename hf hfg s params.useUncertainty hover hθ ho).bind fun sc sc' hsc => ?_
          exact ih hcs (index + 1) (List.rel_append hscored (.cons hsc .nil))

/-- An observation whose variables are renamed one for one, from and to names that are not made for
hypotheses, has the explanations of the observation with these variables renamed. -/
theorem explain_renamingOn (s : Store) {observation : Pattern} {ρ : String → String}
    {candidates : List Candidate}
    (hinj : ∀ v ∈ observation.vars, ∀ w ∈ observation.vars, ρ v = ρ w → v = w)
    (hleft : ∀ v ∈ observation.vars, ¬ Makes candidates v)
    (hright : ∀ v ∈ observation.vars, ¬ Makes candidates (ρ v)) (params : Params) :
    Reading.Alongside (Result.Renamed (renamingOn observation.vars ρ))
      (explain s observation candidates params)
      (explain s (observation.rename ρ) candidates params) := by
  obtain ⟨π, hπ, hfix⟩ := exists_perm hinj hleft hright
  have hrename : observation.rename ρ = observation.rename π :=
    rename_congr fun v hv => (hπ v (mem_vars.2 hv)).symm
  have hagree : ∀ u, u ∈ observation.vars ∨ Makes candidates u →
      π u = renamingOn observation.vars ρ u := by
    intro u hu
    unfold renamingOn
    rcases hu with hvar | hmade
    · rw [if_pos hvar, hπ u hvar]
    · rw [if_neg fun hvar => hleft u hvar hmade, hfix u hmade]
  have hover : ∀ c ∈ candidates, ∀ h, c.hypothesis = .ok h → ∀ i : Nat,
      Over (fun u => π u = u ∧ (u ∈ observation.vars ∨ Makes candidates u))
        (h.renamed ("_h" ++ toString i)) := by
    intro c hc h hh i
    exact (over_makes hc hh i).mono fun u hu => ⟨hfix u hu, .inr hu⟩
  unfold explain
  rw [hrename]
  refine (examine_rename π.injective hagree s params (fun v hv => .inl (mem_vars.2 hv)) hover 0
    .nil).bind fun x x' hx => Reading.alongside_pure ⟨hx.1, ?_, ?_⟩
  · exact rename_congr fun v hv => hagree v (.inl (mem_vars.2 hv))
  · refine forall₂_mergeSort (fun a b a' b' hab hab' => ?_) hx.2
    rw [hab.others, hab'.others]

end Abduction

end Credence
