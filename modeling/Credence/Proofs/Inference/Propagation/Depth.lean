import Credence.Inference.Propagation
import Mathlib.Data.Set.Finite.Basic
import Mathlib.Logic.Relation
import Mathlib.Order.Bounds.Defs
/-!
# How deep facts are

The depth of a fact counts the facts on the longest path of dependencies that starts
at it. A graph that is accepted declares every dependency once, so each of its facts
has one depth, unless a path from it leads into a cycle: then it has none.
-/

namespace Credence.Propagation

variable {graph : List Fact} {t u d : String} {m n : Nat}

/-! ## Accepted graphs -/

/-- What is checked of a graph: statements differ, dependencies are declared, and tables go with
dependencies and without a probability. -/
structure Accepted (graph : List Fact) : Prop where
  distinct : (graph.map Fact.statement).Nodup
  declared : ∀ f ∈ graph, ∀ d ∈ f.dependencies, d ∈ graph.map Fact.statement
  tables : ∀ f ∈ graph, f.conditional.isSome → f.isRoot = false ∧ f.probability = none

theorem firstRepeated_eq_none_iff {seen ts : List String} :
    firstRepeated seen ts = none ↔ ts.Nodup ∧ ∀ t ∈ ts, t ∉ seen := by
  induction ts generalizing seen with
  | nil => simp [firstRepeated]
  | cons t ts ih =>
    unfold firstRepeated
    by_cases ht : t ∈ seen
    · simp [ht]
    · rw [if_neg (by simpa using ht), ih]
      simp only [List.nodup_cons, List.mem_cons, not_or]
      grind

theorem Fact.check_eq_ok_iff {declared : List String} {f : Fact} :
    f.check declared = .ok () ↔ (∀ d ∈ f.dependencies, d ∈ declared) ∧
      (f.conditional.isSome → f.isRoot = false ∧ f.probability = none) := by
  unfold check
  split
  · next d hd =>
    have hmem := List.mem_of_find?_eq_some hd
    have hnot := List.find?_some hd
    simp only [reduceCtorEq, false_iff, not_and]
    intro hall
    simp [hall d hmem] at hnot
  · next hnone =>
    have hall : ∀ d ∈ f.dependencies, d ∈ declared := by simpa using hnone
    rw [and_iff_right hall]
    cases f.conditional <;> cases f.isRoot <;> cases f.probability <;> simp

theorem forM_eq_ok_iff {α ε : Type} {f : α → Except ε Unit} {xs : List α} :
    xs.forM f = .ok () ↔ ∀ x ∈ xs, f x = .ok () := by
  induction xs with
  | nil => simp [pure, Except.pure]
  | cons x xs ih =>
    rw [List.forall_mem_cons, ← ih]
    show (f x >>= fun _ => xs.forM f) = .ok () ↔ _
    cases f x <;> simp [bind, Except.bind]

/-- A graph is accepted as it is given, or not at all. -/
theorem checkGraph_eq_ok_iff {fs : List Fact} :
    checkGraph fs = .ok graph ↔ graph = fs ∧ Accepted fs := by
  unfold checkGraph
  dsimp only
  split
  · next t ht =>
    constructor
    · nofun
    · rintro ⟨_, h⟩
      rw [firstRepeated_eq_none_iff.2 ⟨h.distinct, by simp⟩] at ht
      cases ht
  · next hnone =>
    have hdistinct := (firstRepeated_eq_none_iff.1 hnone).1
    cases hall : fs.forM (Fact.check (fs.map Fact.statement)) with
    | error e =>
      refine ⟨nofun, fun ⟨_, h⟩ => ?_⟩
      have hok := fun f hf => Fact.check_eq_ok_iff.2 ⟨h.declared f hf, h.tables f hf⟩
      rw [forM_eq_ok_iff.2 hok] at hall
      cases hall
    | ok a =>
      have hchecked := fun f hf => Fact.check_eq_ok_iff.1 (forM_eq_ok_iff.1 hall f hf)
      constructor
      · intro heq
        cases heq
        exact ⟨rfl, hdistinct, fun f hf => (hchecked f hf).1, fun f hf => (hchecked f hf).2⟩
      · rintro ⟨rfl, _⟩
        rfl

/-- Of an accepted graph a statement names one fact. -/
theorem Accepted.eq_of_statement (h : Accepted graph) {f g : Fact} (hf : f ∈ graph) (hg : g ∈ graph)
    (heq : f.statement = g.statement) : f = g :=
  List.inj_on_of_nodup_map h.distinct hf hg heq

/-- Whether a graph is accepted does not depend on its order. -/
theorem Accepted.of_perm (ha : Accepted graph) {graph' : List Fact} (h : graph.Perm graph') :
    Accepted graph' where
  distinct := (h.map _).nodup_iff.1 ha.distinct
  declared f hf d hd := (h.map _).subset (ha.declared f (h.symm.subset hf) d hd)
  tables f hf := ha.tables f (h.symm.subset hf)

/-! ## Depth -/

/-- The greatest of some numbers; zero if there are none. -/
def greatest (ns : List Nat) : Nat := ns.foldr max 0

theorem le_greatest {ns : List Nat} (h : n ∈ ns) : n ≤ greatest ns := by
  induction ns with
  | nil => cases h
  | cons k ns ih =>
    simp only [greatest, List.foldr_cons] at ih ⊢
    rcases List.mem_cons.1 h with rfl | h
    · exact Nat.le_max_left ..
    · exact Nat.le_trans (ih h) (Nat.le_max_right ..)

theorem greatest_le {ns : List Nat} (h : ∀ k ∈ ns, k ≤ n) : greatest ns ≤ n := by
  induction ns with
  | nil => exact Nat.zero_le n
  | cons k ns ih =>
    obtain ⟨hk, hns⟩ := List.forall_mem_cons.1 h
    exact Nat.max_le.2 ⟨hk, ih hns⟩

/-- The greatest number is one of them, or zero. -/
theorem greatest_mem (ns : List Nat) : greatest ns = 0 ∨ greatest ns ∈ ns := by
  induction ns with
  | nil => exact .inl rfl
  | cons k ns ih =>
    simp only [greatest, List.foldr_cons, List.mem_cons] at ih ⊢
    rcases Nat.le_total k (ns.foldr max 0) with hle | hle
    · rw [Nat.max_eq_right hle]
      exact ih.imp_right .inr
    · rw [Nat.max_eq_left hle]
      exact .inr (.inl rfl)

/-- The depth of a statement: one more than the greatest depth of what its fact depends on, and so
one without dependencies. -/
inductive HasDepth (graph : List Fact) : String → Nat → Prop
  | fact {f : Fact} (hf : f ∈ graph) (depth : String → Nat)
    (h : ∀ d ∈ f.dependencies, HasDepth graph d (depth d)) :
    HasDepth graph f.statement (1 + greatest (f.dependencies.map depth))

theorem HasDepth.pos (h : HasDepth graph t n) : 0 < n := by
  cases h
  omega

theorem HasDepth.mem (h : HasDepth graph t n) : t ∈ graph.map Fact.statement := by
  cases h with
  | fact hf depth h => exact List.mem_map_of_mem hf

theorem HasDepth.of_subset {graph' : List Fact} (hsub : graph ⊆ graph') (h : HasDepth graph t n) :
    HasDepth graph' t n := by
  induction h with
  | fact hf depth _ ih => exact .fact (hsub hf) depth ih

/-- Depths do not depend on the order of the facts. -/
theorem hasDepth_perm {graph' : List Fact} (h : graph.Perm graph') :
    HasDepth graph t n ↔ HasDepth graph' t n :=
  ⟨.of_subset h.subset, .of_subset h.symm.subset⟩

/-- A statement has one depth at most. -/
theorem HasDepth.unique (ha : Accepted graph) (h : HasDepth graph t m) (h' : HasDepth graph t n) :
    m = n := by
  induction h generalizing n with
  | @fact f hf depth _ ih =>
    generalize ht : f.statement = t at h'
    cases h' with
    | @fact g hg depth' h' =>
      obtain rfl := ha.eq_of_statement hf hg ht
      have hsame : f.dependencies.map depth = f.dependencies.map depth' :=
        List.map_congr_left fun d hd => ih d hd (h' d hd)
      rw [hsame]

/-- What a fact depends on has a lesser depth. -/
theorem HasDepth.dependency (ha : Accepted graph) {f : Fact} (hf : f ∈ graph)
    (h : HasDepth graph f.statement n) (hd : d ∈ f.dependencies) :
    ∃ m < n, HasDepth graph d m := by
  generalize ht : f.statement = t at h
  cases h with
  | @fact g hg depth h =>
    obtain rfl := ha.eq_of_statement hf hg ht
    have hle := le_greatest (List.mem_map_of_mem (f := depth) hd)
    exact ⟨depth d, by omega, h d hd⟩

theorem exists_hasDepth {f : Fact} (hf : f ∈ graph)
    (h : ∀ d ∈ f.dependencies, ∃ m, HasDepth graph d m) : ∃ n, HasDepth graph f.statement n := by
  have hchoice : ∀ d, ∃ m, d ∈ f.dependencies → HasDepth graph d m := by
    intro d
    by_cases hd : d ∈ f.dependencies
    · exact (h d hd).imp fun _ hm _ => hm
    · exact ⟨0, fun hd' => absurd hd' hd⟩
  choose depth hdepth using hchoice
  exact ⟨_, .fact hf depth hdepth⟩

/-- A fact is at most one deeper than what it depends on. -/
theorem HasDepth.le_succ (ha : Accepted graph) {f : Fact} (hf : f ∈ graph)
    (h : HasDepth graph f.statement m) (hdeps : ∀ d ∈ f.dependencies, ∃ k ≤ n, HasDepth graph d k) :
    m ≤ n + 1 := by
  generalize ht : f.statement = t at h
  cases h with
  | @fact g hg depth h =>
    obtain rfl := ha.eq_of_statement hf hg ht
    have hle : greatest (f.dependencies.map depth) ≤ n := greatest_le fun k hk => by
      obtain ⟨d, hd, rfl⟩ := List.mem_map.1 hk
      obtain ⟨k, hk, hdepth⟩ := hdeps d hd
      rwa [(h d hd).unique ha hdepth]
    omega

/-- There are facts of every lesser depth. -/
theorem HasDepth.exists_pred (h : HasDepth graph t (n + 1)) (hn : n ≠ 0) :
    ∃ u, HasDepth graph u n := by
  generalize hm : n + 1 = m at h
  cases h with
  | @fact f hf depth h =>
    have heq : greatest (f.dependencies.map depth) = n := by omega
    rcases greatest_mem (f.dependencies.map depth) with hzero | hmem
    · omega
    · rw [heq] at hmem
      obtain ⟨d, hd, rfl⟩ := List.mem_map.1 hmem
      exact ⟨d, h d hd⟩

/-- Where no fact has some depth, none is deeper. -/
theorem HasDepth.le_of_none (hnone : ∀ u, ¬ HasDepth graph u (n + 1)) (h : HasDepth graph t m) :
    m ≤ n := by
  by_contra hlt
  -- Going down from the deeper fact one comes to that depth.
  obtain ⟨k, rfl⟩ := Nat.exists_eq_add_of_lt (Nat.lt_of_not_le hlt)
  induction k generalizing t with
  | zero => exact hnone t h
  | succ k ih =>
    obtain ⟨u, hu⟩ := HasDepth.exists_pred h (by omega)
    exact ih hu (by omega)

/-- The depths of the facts of a graph, and zero. -/
def depths (graph : List Fact) : Set Nat := { n | n = 0 ∨ ∃ t, HasDepth graph t n }

/-- Some fact is the deepest, unless none has a depth. -/
theorem exists_deepest (ha : Accepted graph) : ∃ m, IsGreatest (depths graph) m := by
  have hchoice : ∀ t, ∃ k ∈ depths graph, ∀ n, HasDepth graph t n → n ≤ k := by
    intro t
    by_cases ht : ∃ n, HasDepth graph t n
    · obtain ⟨k, hk⟩ := ht
      exact ⟨k, .inr ⟨t, hk⟩, fun n hn => Nat.le_of_eq (hn.unique ha hk)⟩
    · exact ⟨0, .inl rfl, fun n hn => absurd ⟨n, hn⟩ ht⟩
  choose depth hin hle using hchoice
  refine ⟨greatest ((graph.map Fact.statement).map depth), ?_, ?_⟩
  · rcases greatest_mem ((graph.map Fact.statement).map depth) with hzero | hmem
    · exact .inl hzero
    · obtain ⟨t, _, heq⟩ := List.mem_map.1 hmem
      exact heq ▸ hin t
  · rintro n (rfl | ⟨t, hn⟩)
    · exact Nat.zero_le _
    · exact Nat.le_trans (hle t n hn) (le_greatest (List.mem_map_of_mem hn.mem))

/-! ## Cycles -/

/-- Whether the fact of a statement depends on another statement. -/
def Depends (graph : List Fact) (t d : String) : Prop :=
  ∃ f ∈ graph, f.statement = t ∧ d ∈ f.dependencies

/-- Whether a path of dependencies leads from a statement into a cycle. -/
def MeetsCycle (graph : List Fact) (t : String) : Prop :=
  ∃ u, Relation.ReflTransGen (Depends graph) t u ∧ Relation.TransGen (Depends graph) u u

theorem HasDepth.of_transGen (ha : Accepted graph)
    (hpath : Relation.TransGen (Depends graph) t u) (h : HasDepth graph t n) :
    ∃ m < n, HasDepth graph u m := by
  induction hpath with
  | single hstep =>
    obtain ⟨f, hf, rfl, hd⟩ := hstep
    exact h.dependency ha hf hd
  | tail _ hstep ih =>
    obtain ⟨k, hk, hdepth⟩ := ih
    obtain ⟨f, hf, rfl, hd⟩ := hstep
    obtain ⟨m, hm, hdepth'⟩ := hdepth.dependency ha hf hd
    exact ⟨m, by omega, hdepth'⟩

/-- Along a cycle the depth would decrease for ever. -/
theorem HasDepth.not_meetsCycle (ha : Accepted graph) (h : HasDepth graph t n) :
    ¬ MeetsCycle graph t := by
  rintro ⟨u, hpath, hcycle⟩
  have hu : ∃ m, HasDepth graph u m := by
    rcases Relation.reflTransGen_iff_eq_or_transGen.1 hpath with rfl | hpath
    · exact ⟨n, h⟩
    · obtain ⟨m, _, hm⟩ := h.of_transGen ha hpath
      exact ⟨m, hm⟩
  obtain ⟨m, hm⟩ := hu
  obtain ⟨k, hk, hdepth⟩ := hm.of_transGen ha hcycle
  rw [hdepth.unique ha hm] at hk
  exact Nat.lt_irrefl m hk

/-- The statements of a graph that a path of dependencies leads to. -/
def Below (graph : List Fact) (t : String) : Type :=
  { u // u ∈ graph.map Fact.statement ∧ Relation.ReflTransGen (Depends graph) t u }

instance (graph : List Fact) (t : String) : Finite (Below graph t) :=
  ((graph.map Fact.statement).finite_toSet.subset fun _ hu => hu.1).to_subtype

/-- Finitely many statements without a cycle can be gone through from the deepest up. -/
theorem wellFounded_below (h : ¬ MeetsCycle graph t) :
    WellFounded fun v u : Below graph t => Relation.TransGen (Depends graph) u.1 v.1 := by
  have htrans : IsTrans (Below graph t) fun v u => Relation.TransGen (Depends graph) u.1 v.1 :=
    ⟨fun _ _ _ hwv hvu => hvu.trans hwv⟩
  have hirrefl : Std.Irrefl fun v u : Below graph t => Relation.TransGen (Depends graph) u.1 v.1 :=
    ⟨fun u hcycle => h ⟨u.1, u.2.2, hcycle⟩⟩
  exact Finite.wellFounded_of_trans_of_irrefl _

/-- In an accepted graph exactly the facts have a depth from which no path leads into a cycle. -/
theorem exists_hasDepth_iff (ha : Accepted graph) (ht : t ∈ graph.map Fact.statement) :
    (∃ n, HasDepth graph t n) ↔ ¬ MeetsCycle graph t := by
  refine ⟨fun ⟨n, hn⟩ => hn.not_meetsCycle ha, fun hnone => ?_⟩
  suffices hall : ∀ u : Below graph t, ∃ n, HasDepth graph u.1 n from hall ⟨t, ht, .refl⟩
  intro u
  induction u using (wellFounded_below hnone).induction with
  | h u ih =>
    obtain ⟨u, hu, hpath⟩ := u
    obtain ⟨f, hf, rfl⟩ := List.mem_map.1 hu
    refine exists_hasDepth hf fun d hd => ?_
    have hstep : Depends graph f.statement d := ⟨f, hf, rfl, hd⟩
    exact ih ⟨d, ha.declared f hf d hd, hpath.tail hstep⟩ (.single hstep)

end Credence.Propagation
