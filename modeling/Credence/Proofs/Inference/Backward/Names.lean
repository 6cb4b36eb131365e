import Mathlib.Data.Set.Finite.Range
import Credence.Proofs.Inference.Alike
import Credence.Proofs.Inference.Backward.Rename
/-!
# The variables of a result

A search that answers alike under all renamings of what its goal does not mention cannot
mention more itself: its findings have the variables of the goal and names made for
rules, no others. So the findings for a renamed goal are told by the renaming of the
variables of the goal alone.
-/

namespace Credence

open Pattern

variable {f g : String → String}

/-! ## Variables of proofs -/

namespace Proof

mutual

/-- The variables of the goals of a proof. -/
def names : Proof → List String
  | node g _ _ _ cs => g.occurrences ++ namesList cs

/-- The variables of the goals of several proofs. -/
def namesList : List Proof → List String
  | [] => []
  | c :: cs => names c ++ namesList cs

end

mutual

theorem names_rename (p : Proof) : (p.rename f).names = p.names.map f := by
  cases p with
  | node g c d s cs =>
    unfold rename names
    rw [List.map_append, occurrences_rename, namesList_rename cs]

theorem namesList_rename (cs : List Proof) :
    namesList (renameList f cs) = (namesList cs).map f := by
  cases cs with
  | nil => rfl
  | cons c cs =>
    unfold renameList namesList
    rw [List.map_append, names_rename c, namesList_rename cs]

end

mutual

theorem rename_congr {p : Proof} (h : ∀ v ∈ p.names, f v = g v) : p.rename f = p.rename g := by
  cases p with
  | node q c d s cs =>
    unfold rename
    rw [Pattern.rename_congr fun v hv => h v (List.mem_append_left _ hv),
      renameList_congr fun v hv => h v (List.mem_append_right _ hv)]

theorem renameList_congr {cs : List Proof} (h : ∀ v ∈ namesList cs, f v = g v) :
    renameList f cs = renameList g cs := by
  cases cs with
  | nil => rfl
  | cons c cs =>
    unfold renameList
    rw [rename_congr fun v hv => h v (List.mem_append_left _ hv),
      renameList_congr fun v hv => h v (List.mem_append_right _ hv)]

end

end Proof

/-! ## Names that stand nowhere -/

theorem exists_fresh (vs : List String) : ∃ w, w ∉ vs ∧ '_' ∉ w.toList := by
  have hinj : Function.Injective fun n => String.ofList (List.replicate n 'a') := by
    intro m n h
    have hlist := String.ofList_injective h
    have hlen := congrArg List.length hlist
    rwa [List.length_replicate, List.length_replicate] at hlen
  obtain ⟨w, ⟨n, rfl⟩, hw⟩ := (Set.infinite_range_of_injective hinj).exists_notMem_finset vs.toFinset
  refine ⟨_, fun hin => hw (List.mem_toFinset.2 hin), fun hin => ?_⟩
  rw [String.toList_ofList] at hin
  exact absurd (List.eq_of_mem_replicate hin) (by decide)

theorem RuleBase.underscore_of_makes {b : RuleBase} {u : String} (h : b.Makes u) :
    '_' ∈ u.toList := by
  obtain ⟨r, _, _, v, _, tag, _, i, rfl⟩ := h
  simp [String.toList_append]

namespace Backward

/-- The variables of the findings. -/
def Result.names (r : Result) : List String :=
  r.goal.occurrences ++ occurrencesList (r.subgoals.map Subgoal.goal) ++ Proof.namesList r.steps ++
    (r.bindings.keys ++ occurrencesList r.bindings.values)

theorem Result.names_rename (r : Result) : (r.rename f).names = r.names.map f := by
  have hsubgoals : (r.subgoals.map (Subgoal.rename f)).map Subgoal.goal =
      (r.subgoals.map Subgoal.goal).map (Pattern.rename f) := by
    rw [List.map_map, List.map_map]
    rfl
  have hkeys : (r.bindings.relabel f (Pattern.rename f)).keys = r.bindings.keys.map f := by
    unfold Table.keys Table.relabel
    rw [List.map_map, List.map_map]
    rfl
  have hvalues : (r.bindings.relabel f (Pattern.rename f)).values =
      r.bindings.values.map (Pattern.rename f) := by
    unfold Table.values Table.relabel
    rw [List.map_map, List.map_map]
    rfl
  unfold Result.names Result.rename
  dsimp only
  rw [hsubgoals, hkeys, hvalues, ← Proof.renameList_eq_map, Proof.namesList_rename,
    occurrences_rename, occurrencesList_rename, occurrencesList_rename]
  simp only [List.map_append]

theorem Result.rename_congr {r : Result} (h : ∀ v ∈ r.names, f v = g v) :
    r.rename f = r.rename g := by
  obtain ⟨hfindings, hbindings⟩ := List.forall_mem_append.1 h
  obtain ⟨hgoals, hsteps⟩ := List.forall_mem_append.1 hfindings
  obtain ⟨hgoal, hsubgoals⟩ := List.forall_mem_append.1 hgoals
  obtain ⟨hkeys, hvalues⟩ := List.forall_mem_append.1 hbindings
  have hsubgoals' : r.subgoals.map (Subgoal.rename f) = r.subgoals.map (Subgoal.rename g) := by
    refine List.map_congr_left fun q hq => ?_
    have hin : q.goal ∈ r.subgoals.map Subgoal.goal := List.mem_map_of_mem hq
    unfold Subgoal.rename
    rw [Pattern.rename_congr fun v hv => hsubgoals v (mem_occurrencesList.2 ⟨_, hin, hv⟩)]
  have hbindings' : r.bindings.relabel f (Pattern.rename f) =
      r.bindings.relabel g (Pattern.rename g) := by
    refine congrArg Table.mk (List.map_congr_left fun e he => ?_)
    have hin : e.2 ∈ r.bindings.values := List.mem_map_of_mem he
    rw [hkeys e.1 (List.mem_map_of_mem he),
      Pattern.rename_congr fun v hv => hvalues v (mem_occurrencesList.2 ⟨_, hin, hv⟩)]
  unfold Result.rename
  rw [Pattern.rename_congr hgoal, hsubgoals', hbindings', ← Proof.renameList_eq_map,
    ← Proof.renameList_eq_map, Proof.renameList_congr hsteps]

variable {pb : Problem}

/-- A result has only variables of its goal and names made for rules. -/
theorem mem_names_of_report (hp : pb.store.Plain) {goal : Pattern} {s : State} {r : Result}
    (hr : (pb.report goal s).1 = .ok r) {u : String} (hu : u ∈ r.names) :
    u ∈ goal.vars ∨ pb.rules.Makes u := by
  by_contra hnot
  obtain ⟨hgoal, hmade⟩ := not_or.1 hnot
  obtain ⟨w, hw, hplain⟩ := exists_fresh (r.names ++ goal.vars)
  -- Exchanging the variable for a fresh one changes nothing in the goal, so nothing in the result.
  have hfix : ∀ v, pb.rules.Makes v → Equiv.swap u w v = v := by
    intro v hv
    refine Equiv.swap_apply_of_ne_of_ne ?_ ?_
    · rintro rfl
      exact hmade hv
    · rintro rfl
      exact hplain (RuleBase.underscore_of_makes hv)
  have hsame : goal.rename (Equiv.swap u w) = goal := by
    refine rename_of_fixed fun v hv => Equiv.swap_apply_of_ne_of_ne ?_ ?_
    · rintro rfl
      exact hgoal (mem_vars.2 hv)
    · rintro rfl
      exact hw (List.mem_append_right _ (mem_vars.2 hv))
  have hreport := report_rename (Equiv.swap u w).injective hfix hp goal s
  rw [hsame] at hreport
  have hresult : r = r.rename (Equiv.swap u w) := by
    have h := congrArg Prod.fst hreport
    rw [hr] at h
    exact Except.ok.inj h
  refine hw (List.mem_append_left _ ?_)
  rw [hresult, Result.names_rename]
  exact List.mem_map.2 ⟨u, hu, Equiv.swap_apply_left u w⟩

/-- The report about a goal whose variables are renamed one for one, from and to names that are not
made for rules, is the report about the goal with these variables renamed. -/
theorem report_renamingOn (hp : pb.store.Plain) {goal : Pattern} {ρ : String → String}
    (hinj : ∀ v ∈ goal.vars, ∀ w ∈ goal.vars, ρ v = ρ w → v = w)
    (hleft : ∀ v ∈ goal.vars, ¬ pb.rules.Makes v)
    (hright : ∀ v ∈ goal.vars, ¬ pb.rules.Makes (ρ v)) (s : State) :
    pb.report (goal.rename ρ) s =
      ((pb.report goal s).1.map (Result.rename (renamingOn goal.vars ρ)), (pb.report goal s).2) := by
  obtain ⟨π, hπ, hfix⟩ := exists_perm hinj hleft hright
  have hgoal : goal.rename ρ = goal.rename π :=
    Pattern.rename_congr fun v hv => (hπ v (mem_vars.2 hv)).symm
  rw [hgoal, report_rename π.injective hfix hp]
  refine congrArg (Prod.mk · _) ?_
  cases hr : (pb.report goal s).1 with
  | error e => rfl
  | ok r =>
    refine congrArg Except.ok (Result.rename_congr fun u hu => ?_)
    unfold renamingOn
    rcases mem_names_of_report hp hr hu with hvar | hmade
    · rw [if_pos hvar, hπ u hvar]
    · rw [if_neg fun hvar => hleft u hvar hmade, hfix u hmade]

theorem chain_renamingOn {store : Store} (hp : store.Plain) {rules : RuleBase} {goal : Pattern}
    {ρ : String → String} (hinj : ∀ v ∈ goal.vars, ∀ w ∈ goal.vars, ρ v = ρ w → v = w)
    (hleft : ∀ v ∈ goal.vars, ¬ rules.Makes v) (hright : ∀ v ∈ goal.vars, ¬ rules.Makes (ρ v))
    {params : Params} (htime : params.timeout = none) (clock clock' : Clock) :
    chain store rules (goal.rename ρ) params clock' =
      Result.rename (renamingOn goal.vars ρ) <$> chain store rules goal params clock := by
  have halike : store.Alike store := ⟨fun _ => rfl, rfl, rfl, rfl, rfl⟩
  have hclock : chain store rules (goal.rename ρ) params clock' =
      chain store rules (goal.rename ρ) params clock :=
    chain_congr halike (fun _ => rfl) (poll_eq_of_timeless htime clock clock')
  rw [hclock]
  unfold chain
  rw [report_renamingOn hp hinj hleft hright]
  rcases Problem.report ⟨store, rules, params, ⟨params.timeout, clock⟩⟩ goal .start with
    ⟨e | r, s⟩ <;> rfl

end Backward

end Credence
