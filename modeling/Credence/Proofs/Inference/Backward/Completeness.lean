import Credence.Proofs.Inference.Backward.Flagged
import Credence.Proofs.Inference.LoopFree
import Credence.Proofs.Rule.Fresh
/-!
# Completeness of the noted search

Every derivation without loops is found, or the search notes that it was cut short.
The derivation guides the search: at each goal it tells which fact or rule to follow,
and a solution of the bindings says which instance of the goal is meant. The names of
renamed variables are new, so the solution can be extended to them at every rule.

A goal that is ground and open above cannot occur in a derivation without loops, so
passing over its rules loses nothing.
-/

namespace Credence.Backward

open Pattern Substitution Search

/-! ## States over time -/

/-- Whether a state may come after another: goals are numbered upwards and no note is lost. -/
structure State.Before (s t : State) : Prop where
  fresh : s.fresh ≤ t.fresh
  boundReached : s.boundReached = true → t.boundReached = true
  incomplete : s.incomplete = true → t.incomplete = true

/-- Whether a search notes that it was cut short. -/
def State.Cut (s : State) : Prop := s.boundReached = true ∨ s.incomplete = true

theorem lasting_before : Lasting State.Before State.Cut where
  refl _ := ⟨Nat.le_refl _, id, id⟩
  trans h h' := ⟨Nat.le_trans h.fresh h'.fresh, fun hb => h'.boundReached (h.boundReached hb),
    fun hi => h'.incomplete (h.incomplete hi)⟩
  keeps h hs := hs.imp h.boundReached h.incomplete

theorem before_poll (d : Deadline) (s : State) : s.Before (s.poll d) := by
  refine ⟨Nat.le_refl _, id, fun hi => ?_⟩
  unfold State.poll
  dsimp only
  rw [hi]
  rfl

theorem before_note (reached : Bool) (s : State) : s.Before (s.note reached) := by
  refine ⟨Nat.le_refl _, fun hb => ?_, id⟩
  unfold State.note
  dsimp only
  rw [hb]
  rfl

variable {pb : Problem}

theorem moves_byFact (goal : Pattern) (θ : Substitution) (depth : Nat) (m : Match) :
    Moves State.Before (pb.byFact goal θ depth m) := by
  unfold Problem.byFact
  split <;> exact trivial

theorem moves_proveAll {prove : Pattern → Substitution → Proving (Substitution × Proof)}
    (h : ∀ g θ, Moves State.Before (prove g θ)) (goals : List Pattern) (θ : Substitution) :
    Moves State.Before (proveAll prove goals θ) := by
  induction goals generalizing θ with
  | nil => exact trivial
  | cons g gs ih =>
    unfold proveAll
    exact (h g θ).bind fun a => (ih a.1).map _

theorem moves_tried {prove : Pattern → Substitution → Proving (Substitution × Proof)}
    (h : ∀ g θ, Moves State.Before (prove g θ)) (goal : Pattern) (θ : Substitution) (depth : Nat)
    (r : Rule) : Moves State.Before (tried prove goal θ depth r) := by
  unfold tried
  cases Unification.unify goal r.conclusion θ with
  | none => exact trivial
  | some θ₁ => exact (moves_proveAll h _ θ₁).map _

theorem moves_byRulesNoted (pb : Problem)
    {prove : List String → Pattern → Substitution → Proving (Substitution × Proof)}
    (h : ∀ o g θ, Moves State.Before (prove o g θ)) (open_ : List String) (goal : Pattern)
    (θ : Substitution) (depth : Nat) :
    Moves State.Before (pb.byRulesNoted prove open_ goal θ depth) := by
  unfold Problem.byRulesNoted
  split
  · exact ⟨before_note _, fun _ => trivial⟩
  · exact ⟨fun s => ⟨Nat.le_succ _, id, id⟩, fun s => moves_ofEach fun r _ => moves_tried (h _) _ _ _ r⟩

/-- The actions of the search lose no note. -/
theorem moves_proveNoted (pb : Problem) (levels depth : Nat) (open_ : List String) (goal : Pattern)
    (θ : Substitution) : Moves State.Before (pb.proveNoted levels depth open_ goal θ) := by
  induction levels generalizing depth open_ goal θ with
  | zero =>
    unfold Problem.proveNoted
    refine ⟨before_poll _, fun s => ?_⟩
    dsimp only
    split
    · exact trivial
    · exact ⟨fun s => ⟨Nat.le_refl _, fun _ => rfl, id⟩, fun _ => trivial⟩
  | succ levels ih =>
    unfold Problem.proveNoted
    refine ⟨before_poll _, fun s => ?_⟩
    dsimp only
    split
    · exact trivial
    · refine ⟨fun s => ⟨Nat.le_refl _, id, id⟩, fun s => ?_⟩
      dsimp only
      cases pb.facts (θ.apply goal) with
      | error e => exact trivial
      | ok ms =>
        refine ⟨before_note _, fun s => ?_⟩
        exact (moves_ofEach fun m _ => moves_byFact _ _ _ m).append
          (moves_byRulesNoted pb (ih (depth + 1)) _ _ _ _)

/-! ## Wanted answers -/

/-- What the search has to find for a derivation: an answer of the same confidence whose bindings
have a solution that agrees with the given one on all names that were in use. -/
structure Follows (n : Nat) (σ : Valuation) (θ : Substitution) (s : State) : Prop where
  later : n ≤ s.fresh
  acyclic : θ.Acyclic
  known : θ.Over (Known s.fresh)
  solution : ∃ σ' : Valuation, Solves σ' θ ∧ ∀ v, Known n v → σ' v = σ v

/-- The solution that guides the search, and where the search stands. -/
structure Guided (n : Nat) (σ : Valuation) (θ : Substitution) (above : List Pattern)
    (open_ : List String) : Prop where
  acyclic : θ.Acyclic
  known : θ.Over (Known n)
  solves : Solves σ θ
  opened : ∀ k ∈ open_, ∃ q : Pattern, q.variantKey = k ∧ q.Over (Known n) ∧ q.subst σ ∈ above

theorem subst_of_agree {n : Nat} {σ σ' : Valuation} (h : ∀ v, Known n v → σ' v = σ v)
    {p : Pattern} (hp : p.Over (Known n)) : p.subst σ' = p.subst σ :=
  subst_congr fun v hv => h v (hp v hv)

theorem Solves.of_agree {n : Nat} {σ σ' : Valuation} (h : ∀ v, Known n v → σ' v = σ v)
    {θ : Substitution} (hθ : θ.Over (Known n)) (hs : Solves σ θ) : Solves σ' θ := by
  intro v p hv
  have hkey : Known n v := hθ.keys v (by rw [hv]; exact Option.some_ne_none p)
  rw [h v hkey, hs v p hv, subst_of_agree h (hθ.values v p hv)]

/-- The guide of a later time, for bindings that were found meanwhile. -/
theorem Guided.follow {n m : Nat} (hnm : n ≤ m) {σ σ' : Valuation} {θ θ' : Substitution}
    {above : List Pattern} {open_ : List String} (h : Guided n σ θ above open_)
    (hacyclic : θ'.Acyclic) (hover : θ'.Over (Known m)) (hsolves : Solves σ' θ')
    (hagree : ∀ v, Known n v → σ' v = σ v) : Guided m σ' θ' above open_ := by
  refine ⟨hacyclic, hover, hsolves, fun k hk => ?_⟩
  obtain ⟨q, hq, hqn, hqa⟩ := h.opened k hk
  refine ⟨q, hq, fun v hv => (hqn v hv).mono hnm, ?_⟩
  rw [subst_of_agree hagree hqn]
  exact hqa

/-- The names in use now were not touched by what was found in between. -/
theorem Follows.trans {n m : Nat} {σ σ' : Valuation} {θ : Substitution} {s : State}
    (hnm : n ≤ m) (hagree : ∀ v, Known n v → σ' v = σ v) (h : Follows m σ' θ s) :
    Follows n σ θ s := by
  obtain ⟨hlater, hacyclic, hover, σ₂, hsolves, hagree₂⟩ := h
  refine ⟨Nat.le_trans hnm hlater, hacyclic, hover, σ₂, hsolves, fun v hv => ?_⟩
  rw [hagree₂ v (hv.mono hnm), hagree v hv]

/-- A search that finds an answer for every derivation of a kind. -/
def FindsEach (derives : Pattern → Float → Prop) (above : List Pattern) (open_ : List String)
    (prove : Pattern → Substitution → Proving (Substitution × Proof)) : Prop :=
  ∀ n σ θ g c s, Guided n σ θ above open_ → g.Over (Known n) → n ≤ s.fresh →
    derives (g.subst σ) c → Finds State.Before State.Cut
      (fun a t => Follows n σ a.1 t ∧ a.2.confidence = c) (prove g θ) s

/-- A derivation for every goal of a list is found, one goal after another. -/
theorem finds_proveAll {prove : Pattern → Substitution → Proving (Substitution × Proof)}
    {derives : Pattern → Float → Prop} {above : List Pattern} {open_ : List String}
    (hmoves : ∀ g θ, Moves State.Before (prove g θ)) (hprove : FindsEach derives above open_ prove)
    {n : Nat} {σ : Valuation} {θ : Substitution} (h : Guided n σ θ above open_)
    {goals : List Pattern} (hgoals : ∀ g ∈ goals, g.Over (Known n)) {cs : List Float}
    (hcs : cs.length = goals.length)
    (hder : ∀ tc ∈ (goals.map (subst σ)).zip cs, derives tc.1 tc.2) {s : State}
    (hs : n ≤ s.fresh) :
    Finds State.Before State.Cut
      (fun a t => Follows n σ a.1 t ∧ a.2.map Proof.confidence = cs) (proveAll prove goals θ) s := by
  induction goals generalizing n σ θ cs s with
  | nil =>
    obtain rfl := List.length_eq_zero_iff.1 hcs
    have hover : θ.Over (Known s.fresh) := h.known.mono fun v hv => hv.mono hs
    exact .inl ⟨⟨hs, h.acyclic, hover, σ, h.solves, fun _ _ => rfl⟩, rfl⟩
  | cons g gs ih =>
    cases cs with
    | nil => cases hcs
    | cons c cs =>
      have hg := hprove n σ θ g c s h (hgoals g (List.mem_cons_self ..)) hs
        (hder _ (List.mem_cons_self ..))
      unfold proveAll
      refine hg.bind lasting_before (hmoves g θ) (fun a => (moves_proveAll hmoves gs a.1).map _) ?_
      rintro ⟨θ₁, p⟩ t ⟨⟨hlater, hacyclic, hover, σ₁, hsolves, hagree⟩, hc⟩
      have hgs : ∀ g' ∈ gs, g'.Over (Known n) := fun g' hg' => hgoals g' (List.mem_cons_of_mem _ hg')
      -- The answer may come with another solution, which reads the other goals in the same way.
      have hsame : gs.map (subst σ₁) = gs.map (subst σ) :=
        List.map_congr_left fun g' hg' => subst_of_agree hagree (hgs g' hg')
      have hrest := ih (s := t) (h.follow hlater hacyclic hover hsolves hagree)
        (fun g' hg' v hv => (hgs g' hg' v hv).mono hlater) (Nat.succ.inj hcs)
        (fun tc htc => hder tc (List.mem_cons_of_mem _ (hsame ▸ htc))) (Nat.le_refl _)
      refine hrest.map fun a u ha => ?_
      obtain ⟨hfollows, hcs'⟩ := ha
      exact ⟨hfollows.trans hlater hagree, congrArg₂ List.cons hc hcs'⟩

/-! ## Facts -/

theorem facts_of_not_overflows (h : pb.store.Inv) {goal : Pattern}
    (hall : pb.overflows goal = false) {ms : List Match}
    (hms : ms.Perm ((pb.store.scan goal .empty).take pb.params.maxResults)) :
    ms.Perm (pb.store.scan goal .empty) := by
  have hscan : pb.store.matchesOf goal = .ok (pb.store.scan goal .empty) :=
    Store.matchesFrom_eq_scan h goal (Store.holds_empty _)
  unfold Problem.overflows at hall
  rw [hscan] at hall
  have hlen : (pb.store.scan goal .empty).length ≤ pb.params.maxResults := by simpa using hall
  rwa [List.take_of_length_le hlen] at hms

/-- What is not overlooked matches under bindings that the solution reads. -/
theorem exists_match_of_not_overlooks (hpb : pb.Proper) {goal : Pattern}
    (hall : pb.overlooks goal = false) {σ : Valuation} {id : AtomId} (hid : id ∈ pb.store.ids)
    (ht : goal.subst σ = pb.store.treeOf id) :
    ∃ b, pb.store.matchAtom goal id .empty = some b ∧ pb.store.Reads σ b := by
  rcases Store.matchAtom_of_instance hpb.inv hpb.plain (Store.reads_empty _ σ) hid ht with
    hmatch | ⟨hnone, -⟩
  · exact hmatch
  · have hground := subst_of_isGround (σ := σ) (Store.isGround_treeOf hpb.inv hpb.plain hid)
    have hunify : Unification.unify goal (pb.store.treeOf id) .empty ≠ none := fun hno =>
      Unification.ne_of_unify_eq_none acyclic_empty hno (solves_empty σ) (ht.trans hground.symm)
    have hpassed := List.any_eq_false.1 hall id hid
    rw [hnone, Option.isSome_iff_ne_none.2 hunify] at hpassed
    exact absurd rfl hpassed

/-- A fact that a solution makes the goal is found, unless facts are left out. -/
theorem finds_byFact (hpb : pb.Proper) {n : Nat} {σ : Valuation} {θ : Substitution}
    {above : List Pattern} {open_ : List String} (h : Guided n σ θ above open_) {goal : Pattern}
    (hg : goal.Over (Known n)) (hfree : θ.Resolved goal) {c : Float}
    (hf : pb.HasFact (goal.subst σ) c) {ms : List Match}
    (hms : ms.Perm ((pb.store.scan goal .empty).take pb.params.maxResults))
    (hall : pb.misses goal = false) (depth : Nat) {s : State} (hs : n ≤ s.fresh) :
    Finds State.Before State.Cut (fun a t => Follows n σ a.1 t ∧ a.2.confidence = c)
      (ofEach (pb.byFact goal θ depth) ms) s := by
  obtain ⟨hcap, hover⟩ := Bool.or_eq_false_iff.1 hall
  obtain ⟨a, ha, ht, rfl⟩ := hf
  have hid : a.id ∈ pb.store.ids := Store.mem_ids.2 ⟨a, ha, rfl⟩
  obtain ⟨b, hb, hreads⟩ := exists_match_of_not_overlooks hpb hover hid
    (Store.treeOf_of_toPattern ht).symm
  have hscan : ⟨b, a.id⟩ ∈ pb.store.scan goal .empty := Store.mem_scan.2 ⟨hid, hb⟩
  have hmem := (facts_of_not_overflows hpb.inv hcap hms).mem_iff.2 hscan
  refine finds_ofEach lasting_before (fun m _ => moves_byFact _ _ _ m) hmem fun t ht => ?_
  obtain ⟨θ', hok, hext⟩ := extension_extend hpb.inv hpb.plain hscan h.acyclic hfree
  have hlater := Nat.le_trans hs ht.fresh
  have hover : θ'.Over (Known n) :=
    hext.over h.known fun e he => hg e.1 (mem_occurrences_of_mem_scan hscan he)
  unfold Problem.byFact
  rw [hok]
  refine .inl ⟨⟨hlater, hext.acyclic, hover.mono fun v hv => hv.mono hlater, σ, ?_,
    fun _ _ => rfl⟩, rfl⟩
  · refine (hext.solves_iff σ).2 ⟨h.solves, fun e he => ?_⟩
    have hget : b.get? e.1 = some e.2 := Table.find_of_mem (Store.nodup_matchAtom
      (b := .empty) List.nodup_nil hb) he
    exact (hreads e.1 e.2 hget).2

/-! ## Rules -/

/-- The guide stays with a goal that is opened. -/
theorem Guided.enter {n : Nat} {σ : Valuation} {θ : Substitution} {above : List Pattern}
    {open_ : List String} (h : Guided n σ θ above open_) {goal : Pattern}
    (hg : goal.Over (Known n)) :
    Guided n σ θ (goal.subst σ :: above) (goal.variantKey :: open_) := by
  refine ⟨h.acyclic, h.known, h.solves, fun k hk => ?_⟩
  rcases List.mem_cons.1 hk with rfl | hk
  · exact ⟨goal, rfl, hg, List.mem_cons_self ..⟩
  · obtain ⟨q, hq, hqn, hqa⟩ := h.opened k hk
    exact ⟨q, hq, hqn, List.mem_cons_of_mem _ hqa⟩

/-- A ground goal that is open stands above in the derivation. -/
theorem Guided.mem_above {n : Nat} {σ : Valuation} {θ : Substitution} {above : List Pattern}
    {open_ : List String} (h : Guided n σ θ above open_) {goal : Pattern}
    (hopen : goal.variantKey ∈ open_) (hground : goal.isGround = true) : goal.subst σ ∈ above := by
  obtain ⟨q, hq, _, hqa⟩ := h.opened _ hopen
  obtain rfl := variantKey_inj hground hq.symm
  exact hqa

section

variable {r : Rule} (hnames : ∀ v ∈ r.names, Unmarked v) {n m : Nat} (hlt : n < m) (i : Nat)
  {σ τ : Valuation} {θ : Substitution} {above : List Pattern} {open_ : List String}
  (h : Guided n σ θ above open_) {goal : Pattern} (hg : goal.Over (Known n))
  (hroot : goal.subst σ = r.conclusion.subst τ)

include hnames hlt hg hroot in
/-- The solution that reads the renamed variables as the derivation does makes the goal the
conclusion of the rule. -/
theorem subst_beside : goal.subst (r.beside (mark m i) τ σ) =
    (r.renamed (mark m i)).conclusion.subst (r.beside (mark m i) τ σ) := by
  have hagree : ∀ v, Known n v → r.beside (mark m i) τ σ v = σ v :=
    fun v hv => Rule.beside_of_known hv hlt
  rw [subst_of_agree hagree hg, hroot, Rule.conclusion_beside hnames]

include hnames hlt h hg hroot in
/-- Proofs of the premises of a renamed rule are found where its conclusion is the goal. -/
theorem finds_premises {prove : Pattern → Substitution → Proving (Substitution × Proof)}
    {derives : Pattern → Float → Prop} (hmoves : ∀ g θ, Moves State.Before (prove g θ))
    (hprove : FindsEach derives (goal.subst σ :: above) (goal.variantKey :: open_) prove)
    {cs : List Float} (hcs : cs.length = r.premises.length)
    (hparts : ∀ pc ∈ r.premises.zip cs, derives (pc.1.subst τ) pc.2) {θ₁ : Substitution}
    (hu : Unification.unify goal (r.renamed (mark m i)).conclusion θ = some θ₁) {t : State}
    (ht : m ≤ t.fresh) :
    Finds State.Before State.Cut (fun a u => Follows n σ a.1 u ∧ a.2.map Proof.confidence = cs)
      (proveAll prove (r.renamed (mark m i)).premises θ₁) t := by
  have hagree : ∀ v, Known n v → r.beside (mark m i) τ σ v = σ v :=
    fun v hv => Rule.beside_of_known hv hlt
  have hmono : ∀ v, Known n v → Known m v := fun v hv => hv.mono (Nat.le_of_lt hlt)
  obtain ⟨hoverc, hoverp⟩ := Rule.over_renamed hnames m i
  have hunifies := Unification.unifies_of_unify h.acyclic hu
  have hover := Unification.over_unify h.acyclic (h.known.mono hmono)
    (fun v hv => hmono v (hg v hv)) hoverc hu
  have hsolves := (hunifies.solves_iff _).2
    ⟨Solves.of_agree hagree h.known h.solves, subst_beside hnames hlt i hg hroot⟩
  have hguided := (h.enter hg).follow (Nat.le_of_lt hlt) hunifies.acyclic hover hsolves hagree
  have hlength : cs.length = (r.renamed (mark m i)).premises.length := by
    rw [hcs]
    exact (List.length_map _).symm
  have hder : ∀ tc ∈ ((r.renamed (mark m i)).premises.map
      (subst (r.beside (mark m i) τ σ))).zip cs, derives tc.1 tc.2 := by
    rw [Rule.premises_beside hnames, List.zip_map_left]
    intro tc htc
    obtain ⟨pc, hpc, rfl⟩ := List.mem_map.1 htc
    exact hparts pc hpc
  exact (finds_proveAll hmoves hprove hguided hoverp hlength hder ht).mono
    fun a u ha => ⟨ha.1.trans (Nat.le_of_lt hlt) hagree, ha.2⟩

end

/-- A rule whose instance a solution makes the goal is found with proofs of its premises. -/
theorem finds_byRulesNoted (hn : ∀ r ∈ pb.rules.rules, ∀ v ∈ r.names, Unmarked v)
    {prove : List String → Pattern → Substitution → Proving (Substitution × Proof)}
    (hmoves : ∀ o g θ, Moves State.Before (prove o g θ))
    (hprove : ∀ above open_,
      FindsEach (LoopFree pb.HasFact pb.rules.rules above) above open_ (prove open_))
    {n : Nat} {σ : Valuation} {θ : Substitution} {above : List Pattern} {open_ : List String}
    (h : Guided n σ θ above open_) {goal : Pattern} (hg : goal.Over (Known n)) {r : Rule}
    (hr : r ∈ pb.rules.rules) (he : r.enabled = true) {τ : Valuation} {cs : List Float}
    (hcs : cs.length = r.premises.length) (hnew : r.conclusion.subst τ ∉ above)
    (hparts : ∀ pc ∈ r.premises.zip cs,
      LoopFree pb.HasFact pb.rules.rules (r.conclusion.subst τ :: above) (pc.1.subst τ) pc.2)
    (hroot : goal.subst σ = r.conclusion.subst τ) (depth : Nat) {s : State} (hs : n ≤ s.fresh) :
    Finds State.Before State.Cut
      (fun a t => Follows n σ a.1 t ∧ a.2.confidence = Proof.least cs * r.reliability.toFloat)
      (pb.byRulesNoted prove open_ goal θ depth) s := by
  rw [← hroot] at hnew hparts
  unfold Problem.byRulesNoted
  split
  · next hopen =>
    -- The derivation has no loops, so a goal that is open is not ground, and this is noted.
    cases hground : goal.isGround with
    | false =>
      refine .inl ?_
      simp [State.note]
    | true => exact absurd (h.mem_above (List.contains_iff_mem.1 hopen) hground) hnew
  · -- The rule is tried under a suffix that no binding knows yet.
    obtain ⟨i, hi⟩ := RuleBase.exists_mem_rulesFor hr he goal (s.fresh + 1)
    have hlt : n < s.fresh + 1 := Nat.lt_succ_of_le hs
    have heq := subst_beside (hn r hr) hlt i hg hroot
    have hmem := hi fun hnone =>
      Unification.ne_of_unify_eq_none acyclic_empty hnone (solves_empty _) heq
    refine finds_ofEach lasting_before (fun r' _ => moves_tried (hmoves _) _ _ _ r') hmem fun t ht => ?_
    have hagree : ∀ v, Known n v → r.beside (mark (s.fresh + 1) i) τ σ v = σ v :=
      fun v hv => Rule.beside_of_known hv hlt
    have hsolves := Solves.of_agree hagree h.known h.solves
    unfold tried
    cases hu : Unification.unify goal (r.renamed (mark (s.fresh + 1) i)).conclusion θ with
    | none => exact absurd heq (Unification.ne_of_unify_eq_none h.acyclic hu hsolves)
    | some θ₁ =>
      have hfinds := finds_premises (hn r hr) hlt i h hg hroot (hmoves _) (hprove _ _) hcs hparts hu
        ht.fresh
      refine hfinds.map fun a u ha => ⟨ha.1, ?_⟩
      exact congrArg (fun ds => Proof.least ds * r.reliability.toFloat) ha.2

/-! ## The whole search -/

/-- A search that runs out of time is marked. -/
theorem cut_poll {d : Deadline} {s : State} (h : (s.poll d).expired = true) : (s.poll d).Cut := by
  refine .inr ?_
  unfold State.poll at h ⊢
  dsimp only at h ⊢
  rw [h, Bool.or_true]

/-- The noted search finds an answer for every derivation without loops. -/
theorem finds_proveNoted (hpb : pb.Proper) (hn : ∀ r ∈ pb.rules.rules, ∀ v ∈ r.names, Unmarked v)
    (levels depth : Nat) (above : List Pattern) (open_ : List String) :
    FindsEach (LoopFree pb.HasFact pb.rules.rules above) above open_
      (pb.proveNoted levels depth open_) := by
  induction levels generalizing depth above open_ with
  | zero =>
    intro n σ θ g c s h hg hs hder
    unfold Problem.proveNoted
    dsimp only [Finds]
    split
    · next hexpired => exact cut_poll hexpired
    · exact .inl rfl
  | succ levels ih =>
    intro n σ θ g c s h hg hs hder
    unfold Problem.proveNoted
    dsimp only [Finds]
    split
    · next hexpired => exact cut_poll hexpired
    · obtain ⟨ms, hms, hperm⟩ := facts_eq pb hpb.inv (θ.apply g)
      have hover : (θ.apply g).Over (Known n) := h.known.apply hg
      have hmoves : ∀ o q θ', Moves State.Before (pb.proveNoted levels (depth + 1) o q θ') :=
        fun o q θ' => moves_proveNoted pb levels (depth + 1) o q θ'
      have hrules := moves_byRulesNoted pb hmoves open_ (θ.apply g) θ depth
      have hfacts : Moves State.Before (ofEach (pb.byFact (θ.apply g) θ depth) ms) :=
        moves_ofEach fun m _ => moves_byFact _ _ _ m
      rw [← h.solves.subst_apply g] at hder
      rw [hms]
      dsimp only [Finds]
      cases hall : pb.misses (θ.apply g) with
      | true =>
        -- Some facts are left out, and that is noted before any fact is tried.
        refine finds_of_cut lasting_before (hfacts.append hrules) (.inl ?_)
        simp [State.note]
      | false =>
        generalize hroot : (θ.apply g).subst σ = t at hder
        cases hder with
        | fact hf =>
          subst hroot
          refine .append_left lasting_before hrules ?_
          exact finds_byFact hpb h hover (h.acyclic.resolved_apply g) hf hperm hall depth hs
        | rule hr he hτ hcs hnew hparts =>
          refine .append_right lasting_before hfacts fun u hu => ?_
          exact finds_byRulesNoted hn hmoves (ih (depth + 1)) h hover hr he hcs hnew hparts hroot
            depth (Nat.le_trans hs hu.fresh)

end Credence.Backward
