import Credence.Proofs.Inference.Backward.Facts
import Credence.Proofs.Store.Reread
import Credence.Proofs.Substitution.Following
/-!
# Bindings of matches that loop

The bindings of a match become a substitution when each bound atom is read as its tree,
be it to instantiate a pattern or to go on with a backward search. Variable nodes are
read as variables then, and those may be bound by the same match or by bindings made
before. Nothing checks for this: where an atom leads back to the variable that it is
bound to, the substitution has a cycle, and replacing variables does not end. Where none
does, and so always in a store without variable nodes, it ends on every pattern.
-/

namespace Credence

open Pattern Substitution

namespace Store

variable {s : Store} {θ θ' : Substitution} {b : Bindings}

/-- Whether a variable node of the atom bound to a variable is read as a variable that bindings made
before take to a pattern of another bound one. -/
def Leads (s : Store) (θ : Substitution) (b : Bindings) (v w : String) : Prop :=
  ∃ id name, b.get? v = some id ∧ s.HasVariable id name ∧
    w ∈ (θ.apply (.var (variableNamed name))).occurrences ∧ b.contains w = true

/-- Whether the atoms that are bound lead from a variable back to itself. -/
def Loops (s : Store) (θ : Substitution) (b : Bindings) : Prop :=
  ∃ v, Relation.TransGen (s.Leads θ b) v v

/-- What adding the trees of bound atoms to a substitution comes to. -/
structure AddsTrees (s : Store) (θ : Substitution) (b : Bindings)
    (run : Except Error Substitution) : Prop where
  built : (∃ θ', run = .ok θ') ↔ ∀ v id, b.get? v = some id → ¬ s.HasVariable id "$"
  acyclic : ∀ θ', run = .ok θ' → (θ'.Acyclic ↔ ¬ s.Loops θ b)
  ends : ∀ θ', run = .ok θ' → (θ'.Ends ↔ ¬ s.Loops θ b)

/-- Without variable nodes no atom leads anywhere. -/
theorem Plain.not_loops (hp : s.Plain) (θ : Substitution) (b : Bindings) : ¬ s.Loops θ b := by
  rintro ⟨v, hv⟩
  obtain ⟨_, ⟨_, _, _, hvar, _⟩, _⟩ := Relation.TransGen.head'_iff.1 hv
  exact hp.not_hasVariable hvar

theorem map_treeOf_ne_none_iff {v : String} :
    (b.get? v).map s.treeOf ≠ none ↔ b.contains v = true := by
  unfold Table.contains
  rw [Ne, Option.map_eq_none_iff, ← Ne, ← Option.isSome_iff_ne_none]

theorem leads_iff (h : s.Inv) {v w : String}
    (hread : ∀ v id, b.get? v = some id → s.toPattern id = .ok (s.treeOf id)) :
    Substitution.Leads θ (fun v => (b.get? v).map s.treeOf) v w ↔ s.Leads θ b v w := by
  unfold Substitution.Leads Leads
  simp only [map_treeOf_ne_none_iff, Option.map_eq_some_iff]
  constructor
  · rintro ⟨_, ⟨id, hid, rfl⟩, hw, hbound⟩
    obtain ⟨u, hu, hto⟩ := mem_occurrences_apply.1 hw
    obtain ⟨name, hname, rfl⟩ := (mem_occurrences_toPattern h (hread v id hid)).1 hu
    exact ⟨id, name, hid, hname, hto, hbound⟩
  · rintro ⟨id, name, hid, hname, hto, hbound⟩
    have hu := (mem_occurrences_toPattern h (hread v id hid)).2 ⟨name, hname, rfl⟩
    exact ⟨_, ⟨id, hid, rfl⟩, mem_occurrences_apply.2 ⟨_, hu, hto⟩, hbound⟩

/-- However the trees of bound atoms are added, they make a cycle exactly if the atoms loop. -/
theorem addsTrees_of_augments (h : s.Inv) (hb : s.Holds b) (hθ : θ.Acyclic)
    {run : Except Error Substitution}
    (hbuilt : (∃ θ', run = .ok θ') ↔ ∀ v id, b.get? v = some id → ∃ p, s.toPattern id = .ok p)
    (haugments : ∀ θ', run = .ok θ' → Augments θ θ' fun v => (b.get? v).map s.treeOf) :
    s.AddsTrees θ b run := by
  have hacyclic : ∀ θ', run = .ok θ' → (θ'.Acyclic ↔ ¬ s.Loops θ b) := by
    intro θ' hrun
    have hread : ∀ v id, b.get? v = some id → s.toPattern id = .ok (s.treeOf id) := by
      intro v id hv
      obtain ⟨p, hp⟩ := hbuilt.1 ⟨θ', hrun⟩ v id hv
      rw [hp, treeOf_of_toPattern hp]
    have hleads : Substitution.Leads θ (fun v => (b.get? v).map s.treeOf) = s.Leads θ b :=
      funext fun v => funext fun w => propext (leads_iff h hread)
    rw [(haugments θ' hrun).acyclic_iff hθ, hleads]
    exact not_exists.symm
  refine ⟨hbuilt.trans ?_, hacyclic, fun θ' hrun => ends_iff_acyclic.trans (hacyclic θ' hrun)⟩
  refine forall_congr' fun v => forall_congr' fun id => forall_congr' fun hv => ?_
  rcases toPattern_cases h (contains_iff.1 (hb v id hv)) with ⟨hp, hbare⟩ | ⟨herror, hbare⟩
  · exact iff_of_true hp hbare
  · rw [herror]
    exact iff_of_false nofun (not_not_intro hbare)

/-! ## Instantiating -/

theorem exists_bindingTrees_iff (hn : b.keys.Nodup) :
    (∃ θ', s.bindingTrees b = .ok θ') ↔
      ∀ v id, b.get? v = some id → ∃ p, s.toPattern id = .ok p := by
  constructor
  · rintro ⟨θ', hrun⟩ v id hv
    obtain ⟨es, hes, _⟩ := map_eq_ok hrun
    obtain ⟨_, _, he⟩ := exists_of_mem_mapM hes (Table.mem_of_find hv)
    obtain ⟨p, hp, _⟩ := map_eq_ok he
    exact ⟨p, hp⟩
  · intro hread
    have heach : ∀ e ∈ b.entries, ∃ t, (s.toPattern e.2).map (fun p => (e.1, p)) = .ok t := by
      intro e he
      obtain ⟨p, hp⟩ := hread e.1 e.2 (Table.find_of_mem hn he)
      exact ⟨(e.1, p), by rw [hp]; rfl⟩
    obtain ⟨es, hes⟩ := exists_mapM_ok heach
    exact ⟨⟨es⟩, by unfold bindingTrees; rw [hes]; rfl⟩

theorem addsTrees_bindingTrees (h : s.Inv) (hb : s.Holds b) (hn : b.keys.Nodup) :
    s.AddsTrees .empty b (s.bindingTrees b) := by
  refine addsTrees_of_augments h hb acyclic_empty (exists_bindingTrees_iff hn) fun θ' hrun => ?_
  refine ⟨fun v => ?_, fun v _ => rfl⟩
  rw [get?_of_bindingTrees hrun v, Table.get?_empty, Option.or_none]

end Store

namespace Backward

open Store

variable {s : Store} {θ θ' : Substitution} {b : Bindings}

/-! ## Going on with a fact -/

theorem get?_of_extend_fold {es : List (String × AtomId)} (hn : (es.map Prod.fst).Nodup)
    (hrun : es.foldlM (fun θ e => (s.toPattern e.2).map fun p => θ.insert e.1 p) θ = .ok θ')
    (v : String) : θ'.get? v = ((Table.find v es).map s.treeOf).or (θ.get? v) := by
  induction es generalizing θ with
  | nil =>
    cases hrun
    rfl
  | cons e es ih =>
    obtain ⟨hne, hn⟩ := List.nodup_cons.1 hn
    rw [List.foldlM_cons] at hrun
    obtain ⟨_, hstep, hrest⟩ := bind_eq_ok hrun
    obtain ⟨p, hp, rfl⟩ := map_eq_ok hstep
    rw [ih hn hrest, Table.get?_insert, Table.find]
    by_cases hv : e.1 = v
    · -- The variables of a match differ, so no later one binds this one again.
      rw [if_pos hv, if_pos hv, (Table.find_eq_none_iff v es).2 (hv ▸ hne), Option.map_some,
        treeOf_of_toPattern hp]
      rfl
    · rw [if_neg hv, if_neg hv]

theorem exists_extend_iff (hn : b.keys.Nodup) :
    (∃ θ', extend s θ b = .ok θ') ↔
      ∀ v id, b.get? v = some id → ∃ p, s.toPattern id = .ok p := by
  constructor
  · rintro ⟨θ', hrun⟩ v id hv
    obtain ⟨_, _, hstep⟩ := exists_step_of_foldlM hrun (Table.mem_of_find hv)
    obtain ⟨p, hp, _⟩ := map_eq_ok hstep
    exact ⟨p, hp⟩
  · intro hread
    refine exists_foldlM_ok (fun e he θ => ?_) θ
    obtain ⟨p, hp⟩ := hread e.1 e.2 (Table.find_of_mem hn he)
    exact ⟨θ.insert e.1 p, by rw [hp]; rfl⟩

theorem addsTrees_extend (h : s.Inv) (hb : s.Holds b) (hn : b.keys.Nodup) (hθ : θ.Acyclic)
    (hfree : ∀ v, b.contains v = true → θ.get? v = none) :
    s.AddsTrees θ b (extend s θ b) := by
  refine addsTrees_of_augments h hb hθ (exists_extend_iff hn) fun θ' hrun => ?_
  exact ⟨get?_of_extend_fold hn hrun, fun v hv => hfree v (map_treeOf_ne_none_iff.1 hv)⟩

/-- In every reachable store a match of a pattern becomes a substitution, by itself or in addition
to bindings without cycles that the pattern was made with, unless a bare mark names a variable node
of an atom that it binds. The substitution has no cycle, and replacing variables by it ends on every
pattern, exactly if the atoms do not loop, which they never do in a store without variable nodes. -/
theorem bindings_end_iff (h : s.Reachable) :
    (∀ p, ∃ ms, s.matchesOf p = .ok ms ∧
      ∀ m ∈ ms, s.AddsTrees .empty m.bindings (s.bindingTrees m.bindings)) ∧
    (∀ goal θ, θ.Acyclic → ∃ ms, s.matchesOf (θ.apply goal) = .ok ms ∧
      ∀ m ∈ ms, s.AddsTrees θ m.bindings (extend s θ m.bindings)) ∧
    (s.Plain → ∀ θ b, ¬ s.Loops θ b) := by
  have hmatches : ∀ p, s.matchesOf p = .ok (s.scan p .empty) :=
    fun p => matchesFrom_eq_scan h.inv p (holds_empty s)
  have hmatch : ∀ p, ∀ m ∈ s.scan p .empty, s.Holds m.bindings ∧ m.bindings.keys.Nodup := by
    intro p m hm
    obtain ⟨hid, hmatch⟩ := mem_scan.1 hm
    exact ⟨(holds_empty s).of_isMatch h.inv hid (isMatch_of_matchAtom hmatch),
      nodup_matchAtom (b := .empty) List.nodup_nil hmatch⟩
  refine ⟨fun p => ⟨_, hmatches p, fun m hm => ?_⟩,
    fun goal θ hθ => ⟨_, hmatches _, fun m hm => ?_⟩, Plain.not_loops⟩
  · obtain ⟨hholds, hn⟩ := hmatch p m hm
    exact addsTrees_bindingTrees h.inv hholds hn
  · obtain ⟨hholds, hn⟩ := hmatch _ m hm
    refine addsTrees_extend h.inv hholds hn hθ fun v hv => hθ.resolved_apply goal v ?_
    obtain ⟨e, he, rfl⟩ := List.mem_map.1 (Table.mem_keys_iff.2 hv)
    exact mem_occurrences_of_mem_scan hm he

/-- A list of the variables `$A` and `$B`. -/
def couple : Pattern := .link (.link .list) [.var "$A", .var "$B"]

/-- The match of `couple` over a labelled list, which binds `$A` to the variable node `X`. -/
def labelling : Match := ⟨⟨[("$A", 1), ("$B", 2)]⟩, 3⟩

/-- The binding of `$X` to a variable. -/
def aliased (v : String) : Substitution := ⟨[("$X", .var v)]⟩

theorem acyclic_aliased {v : String} (hv : "$X" ≠ v) : (aliased v).Acyclic :=
  have hself : "$X" ∉ (Pattern.var v).occurrences := fun h => hv (List.mem_singleton.1 h)
  acyclic_empty.insert (fun _ _ => rfl) hself

theorem matches_couple : labelled.matchesOf couple = .ok [labelling] :=
  ok_of_toOption (by decide +kernel)

/-- The node is read as the variable `$X`, which was bound to `$C`; the match binds neither. -/
theorem bindings_end_labelled : labelled.Reachable ∧ (aliased "$C").Acyclic ∧
    (aliased "$C").apply couple = couple ∧ labelled.matchesOf couple = .ok [labelling] ∧
    ¬ labelled.Loops (aliased "$C") labelling.bindings ∧
    ∃ θ, extend labelled (aliased "$C") labelling.bindings = .ok θ ∧ θ.Ends := by
  have hs : labelled.Reachable := Reachable.single _
  have hacyclic : (aliased "$C").Acyclic := acyclic_aliased (by decide)
  have hcouple : (aliased "$C").apply couple = couple := by decide
  have hloops : ¬ labelled.Loops (aliased "$C") labelling.bindings := by
    rintro ⟨v, hv⟩
    obtain ⟨w, ⟨_, name, _, hname, hw, hbound⟩, _⟩ := Relation.TransGen.head'_iff.1 hv
    rw [eq_of_hasVariable_labelled hname] at hw
    obtain rfl : w = "$C" := List.mem_singleton.1 hw
    revert hbound
    decide
  obtain ⟨_, hadded, _⟩ := bindings_end_iff hs
  obtain ⟨ms, hms, heach⟩ := hadded couple (aliased "$C") hacyclic
  rw [hcouple, matches_couple] at hms
  cases hms
  obtain ⟨hbuilt, _, hends⟩ := heach labelling (List.mem_singleton_self _)
  obtain ⟨θ, hθ⟩ := hbuilt.2 fun v id _ hbare => by
    have := eq_of_hasVariable_labelled hbare
    revert this
    decide
  exact ⟨hs, hacyclic, hcouple, matches_couple, hloops, θ, hθ, (hends θ hθ).2 hloops⟩

/-- The variable `$X` matches the node that is read as it, and is bound to itself. In a labelled
list neither `$A` nor `$B` occurs, but where `$X` was bound to `$A` the match binds `$A` to `$X`. -/
theorem not_bindings_end :
    ((variableNode "$X").Reachable ∧
      (variableNode "$X").matchesOf (.var "$X") = .ok [⟨⟨[("$X", 1)]⟩, 1⟩] ∧
      ∃ θ, (variableNode "$X").bindingTrees ⟨[("$X", 1)]⟩ = .ok θ ∧
        extend (variableNode "$X") .empty ⟨[("$X", 1)]⟩ = .ok θ ∧ ¬ θ.Acyclic ∧ ¬ θ.Ends) ∧
    labelled.Reachable ∧ (aliased "$A").Acyclic ∧ (aliased "$A").apply couple = couple ∧
      labelled.matchesOf couple = .ok [labelling] ∧
      ∃ θ, extend labelled (aliased "$A") labelling.bindings = .ok θ ∧ ¬ θ.Acyclic ∧ ¬ θ.Ends := by
  have hself : ¬ (aliased "$X").Acyclic := fun h =>
    acyclic_iff_cites.1 h "$X" (.single ⟨_, rfl, List.mem_singleton_self _⟩)
  refine ⟨⟨Reachable.empty.add .., ok_of_toOption (by decide +kernel), aliased "$X",
    ok_of_toOption (by decide +kernel), ok_of_toOption (by decide +kernel), hself,
    fun h => hself (ends_iff_acyclic.1 h)⟩, Reachable.single _, acyclic_aliased (by decide),
    by decide, matches_couple, ?_⟩
  let θ : Substitution :=
    ⟨[("$X", .var "$A"), ("$A", .var "$X"), ("$B", .node (.node .concept) "the \"cat\"")]⟩
  have hθ : ¬ θ.Acyclic := fun h => acyclic_iff_cites.1 h "$X"
    (.tail (.single ⟨_, rfl, List.mem_singleton_self _⟩) ⟨_, rfl, List.mem_singleton_self _⟩)
  exact ⟨θ, ok_of_toOption (by decide +kernel), hθ, fun h => hθ (ends_iff_acyclic.1 h)⟩

end Backward

end Credence
