import Mathlib.Logic.Relation
import Credence.Proofs.Substitution.Solution
/-!
# Following bindings to their end

Applying a substitution and the occurs check, as recursions that follow one binding at
a time and stop on their own account. `Substituted` and `Occurring` are their call
trees, so a result of theirs is a run that ends. Where bindings make no cycle both end
on every pattern, with the results of `apply` and `occurs`; a cycle is a variable that
is reached again through what it is bound to. Where they make one, replacing does not
end on every pattern, as a call tree is finite.

Where a substitution without cycles gets more bindings, the old ones may close a cycle
that the new ones alone do not have. Replacing variables by the old bindings contracts
every path through them, so a cycle of all bindings is one of the new variables, each
followed by one that the old bindings leave of its value.
-/

namespace Credence.Substitution

open Pattern

variable {θ : Substitution}

/-! ## Cycles -/

/-- Whether the value of a bound variable mentions another bound one. -/
def Mentions (θ : Substitution) (v w : String) : Prop :=
  ∃ p, θ.get? v = some p ∧ w ∈ p.occurrences ∧ θ.get? w ≠ none

theorem Acyclic.irrefl (h : θ.Acyclic) (v : String) : ¬ Relation.TransGen θ.Mentions v v := by
  obtain ⟨rank, hr⟩ := h
  have hlt : ∀ {u w}, Relation.TransGen θ.Mentions u w → rank w < rank u := by
    intro u w huw
    induction huw with
    | single hm =>
      obtain ⟨p, hp, hw, hb⟩ := hm
      exact hr _ p hp _ hw hb
    | tail _ hm ih =>
      obtain ⟨p, hp, hw, hb⟩ := hm
      exact Nat.lt_trans (hr _ p hp _ hw hb) ih
  exact fun hv => Nat.lt_irrefl _ (hlt hv)

open scoped Classical in
/-- The number of bound variables that are reached from a variable. -/
noncomputable def reach (θ : Substitution) (v : String) : Nat :=
  differing (θ.keys.filter fun w => Relation.TransGen θ.Mentions v w)

open scoped Classical in
theorem reach_lt (h : ∀ v, ¬ Relation.TransGen θ.Mentions v v) {v w : String}
    (hm : θ.Mentions v w) : θ.reach w < θ.reach v := by
  have hw : θ.get? w ≠ none := hm.choose_spec.2.2
  refine differing_lt (v := w) ?_ fun u hu => ?_
  · exact List.mem_filter.2 ⟨mem_keys.2 hw, decide_eq_true (.single hm)⟩
  · obtain ⟨hk, hwu⟩ := List.mem_filter.1 hu
    have hwu := of_decide_eq_true hwu
    refine ⟨List.mem_filter.2 ⟨hk, decide_eq_true (.head hm hwu)⟩, ?_⟩
    rintro rfl
    exact h u hwu

/-- Bindings can be ranked exactly if no variable is reached again from itself. -/
theorem acyclic_iff : θ.Acyclic ↔ ∀ v, ¬ Relation.TransGen θ.Mentions v v :=
  ⟨Acyclic.irrefl, fun h => ⟨θ.reach, fun _ p hp _ hw hb => reach_lt h ⟨p, hp, hw, hb⟩⟩⟩

/-! ## Replacing -/

mutual

/-- The call tree of a replacement: a bound variable goes on with its value, a ground link is
left alone. -/
inductive Substituted (θ : Substitution) : Pattern → Pattern → Prop
  | bound {v : String} {p q : Pattern} :
    θ.get? v = some p → Substituted θ p q → Substituted θ (.var v) q
  | free {v : String} : θ.get? v = none → Substituted θ (.var v) (.var v)
  | node (k : Kind) (n : String) : Substituted θ (.node k n) (.node k n)
  | ground {k : Kind} {cs : List Pattern} :
    (link k cs).isGround = true → Substituted θ (.link k cs) (.link k cs)
  | link {k : Kind} {cs ds : List Pattern} :
    (link k cs).isGround = false → SubstitutedList θ cs ds →
      Substituted θ (.link k cs) (.link k ds)

/-- The call trees of a replacement in the children of a link. -/
inductive SubstitutedList (θ : Substitution) : List Pattern → List Pattern → Prop
  | nil : SubstitutedList θ [] []
  | cons {c d : Pattern} {cs ds : List Pattern} :
    Substituted θ c d → SubstitutedList θ cs ds → SubstitutedList θ (c :: cs) (d :: ds)

end

theorem apply_node (k : Kind) (n : String) : θ.apply (.node k n) = .node k n := by
  rw [apply_eq_subst]
  rfl

theorem apply_link (k : Kind) (cs : List Pattern) :
    θ.apply (.link k cs) = .link k (cs.map θ.apply) := by
  rw [apply_eq_subst]
  show Pattern.link k (substList θ.value cs) = _
  rw [substList_eq_map, List.map_congr_left fun c _ => (apply_eq_subst c).symm]

theorem apply_of_isGround {p : Pattern} (h : p.isGround = true) : θ.apply p = p := by
  rw [apply_eq_subst, subst_of_isGround h]

theorem apply_of_resolved {p : Pattern} (h : θ.Resolved p) : θ.apply p = p :=
  follow_of_resolved h _

theorem Acyclic.apply_bound (h : θ.Acyclic) {v : String} {p : Pattern} (hv : θ.get? v = some p) :
    θ.apply (.var v) = θ.apply p := by
  rw [apply_eq_subst p]
  exact h.solves_value v p hv

theorem apply_free {v : String} (hv : θ.get? v = none) : θ.apply (.var v) = .var v :=
  apply_of_resolved fun w hw => by rwa [List.mem_singleton.1 hw]

mutual

theorem Substituted.eq_apply (h : θ.Acyclic) {p q : Pattern} :
    Substituted θ p q → q = θ.apply p
  | .bound hv hq => by rw [h.apply_bound hv, hq.eq_apply h]
  | .free hv => (apply_free hv).symm
  | .node k n => (apply_node k n).symm
  | .ground hg => (apply_of_isGround hg).symm
  | .link _ hcs => by rw [apply_link, hcs.eq_map h]

theorem SubstitutedList.eq_map (h : θ.Acyclic) {cs ds : List Pattern} :
    SubstitutedList θ cs ds → ds = cs.map θ.apply
  | .nil => rfl
  | .cons hc hcs => by rw [List.map_cons, hc.eq_apply h, hcs.eq_map h]

end

mutual

/-- A replacement that ends on the values of the variables of a pattern ends on the pattern. -/
theorem substituted_of_values (h : θ.Acyclic) {p : Pattern}
    (hp : ∀ v ∈ p.occurrences, ∀ q, θ.get? v = some q → Substituted θ q (θ.apply q)) :
    Substituted θ p (θ.apply p) := by
  cases p with
  | var v =>
    cases hv : θ.get? v with
    | none =>
      rw [apply_free hv]
      exact .free hv
    | some q =>
      rw [h.apply_bound hv]
      exact .bound hv (hp v (List.mem_singleton.2 rfl) q hv)
  | node k n =>
    rw [apply_node]
    exact .node k n
  | link k cs =>
    cases hg : (link k cs).isGround with
    | true =>
      rw [apply_of_isGround hg]
      exact .ground hg
    | false =>
      rw [apply_link]
      exact .link hg (substitutedList_of_values h hp)

theorem substitutedList_of_values (h : θ.Acyclic) {cs : List Pattern}
    (hcs : ∀ v ∈ occurrencesList cs, ∀ q, θ.get? v = some q → Substituted θ q (θ.apply q)) :
    SubstitutedList θ cs (cs.map θ.apply) := by
  cases cs with
  | nil => exact .nil
  | cons c cs =>
    have hc := substituted_of_values h fun v hv => hcs v (List.mem_append_left _ hv)
    have hrest := substitutedList_of_values h fun v hv => hcs v (List.mem_append_right _ hv)
    exact .cons hc hrest

end

/-- Without cycles, following bindings ends on every pattern. -/
theorem Acyclic.substituted_apply (h : θ.Acyclic) (p : Pattern) : Substituted θ p (θ.apply p) := by
  have hacyclic := h
  obtain ⟨rank, hr⟩ := h
  have hbelow : ∀ n (p : Pattern),
      (∀ v ∈ p.occurrences, θ.get? v ≠ none → θ.level rank v < n) →
        Substituted θ p (θ.apply p) := by
    intro n
    induction n with
    | zero =>
      intro p hp
      refine substituted_of_values hacyclic fun v hv q hq => ?_
      exact absurd (hp v hv (by rw [hq]; exact Option.some_ne_none q)) (Nat.not_lt_zero _)
    | succ n ih =>
      -- What a variable is bound to mentions bound variables of a lower level only.
      intro p hp
      refine substituted_of_values hacyclic fun v hv q hq => ih q fun w hw hb => ?_
      have hlt := level_lt hb (hr v q hq w hw hb)
      have := hp v hv (by rw [hq]; exact Option.some_ne_none q)
      omega
  exact hbelow θ.size p fun v _ hb => level_lt_size hb

theorem substituted_iff (h : θ.Acyclic) {p q : Pattern} : Substituted θ p q ↔ θ.apply p = q :=
  ⟨fun hs => (hs.eq_apply h).symm, fun hq => hq ▸ h.substituted_apply p⟩

/-! ## The occurs check -/

mutual

/-- The call tree of the occurs check: the pattern is replaced, then each of its children again. -/
inductive Occurs (θ : Substitution) (v : String) : Pattern → Bool → Prop
  | var {p : Pattern} {w : String} : Substituted θ p (.var w) → Occurs θ v p (w == v)
  | node {p : Pattern} {k : Kind} {n : String} :
    Substituted θ p (.node k n) → Occurs θ v p false
  | link {p : Pattern} {k : Kind} {cs : List Pattern} {b : Bool} :
    Substituted θ p (.link k cs) → OccursAny θ v cs b → Occurs θ v p b

/-- The call trees of the occurs check in children, up to the first in which the variable occurs. -/
inductive OccursAny (θ : Substitution) (v : String) : List Pattern → Bool → Prop
  | nil : OccursAny θ v [] false
  | found {c : Pattern} {cs : List Pattern} : Occurs θ v c true → OccursAny θ v (c :: cs) true
  | next {c : Pattern} {cs : List Pattern} {b : Bool} :
    Occurs θ v c false → OccursAny θ v cs b → OccursAny θ v (c :: cs) b

end

theorem occurs_eq_any {v : String} {p : Pattern} {k : Kind} {cs : List Pattern}
    (h : θ.Acyclic) (hp : θ.apply p = .link k cs) : θ.occurs v p = cs.any (θ.occurs v) := by
  have hcs : ∀ c ∈ cs, θ.apply c = c := by
    have hlink : θ.apply (.link k cs) = .link k cs := by rw [← hp, h.apply_apply]
    rw [apply_link] at hlink
    have hmap : cs.map θ.apply = cs.map id := by rw [List.map_id, (link.inj hlink).2]
    exact List.map_inj_left.1 hmap
  rw [Bool.eq_iff_iff, List.any_eq_true]
  unfold occurs
  rw [hp]
  simp only [List.contains_iff_mem]
  show v ∈ occurrencesList cs ↔ _
  rw [mem_occurrencesList]
  exact exists_congr fun c => and_congr_right fun hc => by rw [hcs c hc]

mutual

theorem Occurs.eq_occurs (h : θ.Acyclic) {v : String} {p : Pattern} {b : Bool} :
    Occurs θ v p b → b = θ.occurs v p
  | .var hs => by
    unfold occurs
    rw [← hs.eq_apply h, Bool.eq_iff_iff, List.contains_iff_mem, beq_iff_eq]
    exact eq_comm.trans List.mem_singleton.symm
  | .node hs => by
    unfold occurs
    rw [← hs.eq_apply h]
    rfl
  | .link hs hcs => by rw [occurs_eq_any h (hs.eq_apply h).symm, hcs.eq_any h]

theorem OccursAny.eq_any (h : θ.Acyclic) {v : String} {cs : List Pattern} {b : Bool} :
    OccursAny θ v cs b → b = cs.any (θ.occurs v)
  | .nil => rfl
  | .found hc => by rw [List.any_cons, ← hc.eq_occurs h, Bool.true_or]
  | .next hc hcs => by rw [List.any_cons, ← hc.eq_occurs h, Bool.false_or, hcs.eq_any h]

end

mutual

/-- The occurs check ends on what a replacement leaves, and on what is replaced by it. -/
theorem occurs_of_substituted (h : θ.Acyclic) (v : String) {p r : Pattern} (hr : θ.Resolved r)
    (hp : Substituted θ p r) : ∃ b, Occurs θ v p b := by
  cases r with
  | var w => exact ⟨_, .var hp⟩
  | node k n => exact ⟨_, .node hp⟩
  | link k cs =>
    have hcs : ∀ w ∈ occurrencesList cs, θ.get? w = none := hr
    obtain ⟨b, hb⟩ := occursAny_of_resolved h v hcs
    exact ⟨b, .link hp hb⟩

theorem occursAny_of_resolved (h : θ.Acyclic) (v : String) {cs : List Pattern}
    (hcs : ∀ w ∈ occurrencesList cs, θ.get? w = none) : ∃ b, OccursAny θ v cs b := by
  cases cs with
  | nil => exact ⟨_, .nil⟩
  | cons c cs =>
    have hc : θ.Resolved c := fun w hw => hcs w (List.mem_append_left _ hw)
    have hself : Substituted θ c c := (substituted_iff h).2 (apply_of_resolved hc)
    obtain ⟨b, hb⟩ := occurs_of_substituted h v hc hself
    cases b with
    | true => exact ⟨_, .found hb⟩
    | false =>
      obtain ⟨d, hd⟩ := occursAny_of_resolved h v fun w hw => hcs w (List.mem_append_right _ hw)
      exact ⟨_, .next hb hd⟩

end

theorem occurs_iff (h : θ.Acyclic) {v : String} {p : Pattern} {b : Bool} :
    Occurs θ v p b ↔ θ.occurs v p = b := by
  constructor
  · exact fun ho => (ho.eq_occurs h).symm
  · rintro rfl
    obtain ⟨b, hb⟩ := occurs_of_substituted h v (h.resolved_apply p) (h.substituted_apply p)
    rwa [← hb.eq_occurs h]

/-! ## Where replacing ends -/

variable {p q : Pattern} {v w : String}

/-- Whether replacing ends on every pattern. -/
def Ends (θ : Substitution) : Prop := ∀ p, ∃ q, Substituted θ p q

/-- Whether a variable is bound to a pattern of another one, which need not be bound. -/
def Cites (θ : Substitution) (v w : String) : Prop := ∃ p, θ.get? v = some p ∧ w ∈ p.occurrences

theorem Cites.bound (h : θ.Cites v w) : θ.get? v ≠ none := by
  obtain ⟨p, hp, _⟩ := h
  rw [hp]
  exact Option.some_ne_none p

theorem transGen_mentions_of_cites (h : Relation.TransGen θ.Cites v w) (hw : θ.get? w ≠ none) :
    Relation.TransGen θ.Mentions v w := by
  induction h with
  | single hc =>
    obtain ⟨p, hp, hu⟩ := hc
    exact .single ⟨p, hp, hu, hw⟩
  | tail _ hc ih =>
    have hbound := hc.bound
    obtain ⟨p, hp, hu⟩ := hc
    exact (ih hbound).tail ⟨p, hp, hu, hw⟩

/-- On a cycle every variable is bound. -/
theorem acyclic_iff_cites : θ.Acyclic ↔ ∀ v, ¬ Relation.TransGen θ.Cites v v := by
  rw [acyclic_iff]
  constructor
  · intro h v hv
    obtain ⟨u, hc, _⟩ := Relation.TransGen.head'_iff.1 hv
    exact h v (transGen_mentions_of_cites hv hc.bound)
  · exact fun h v hv => h v (Relation.TransGen.mono (fun u x ⟨p, hp, hx, _⟩ => ⟨p, hp, hx⟩) v v hv)

mutual

/-- A call tree shows all that is below the variables of its pattern. -/
theorem Substituted.acc {p q : Pattern} :
    Substituted θ p q → ∀ v ∈ p.occurrences, Acc (flip θ.Cites) v
  | .bound hv hq => fun w hw => by
    rw [List.mem_singleton.1 hw]
    refine ⟨_, fun u ⟨p, hp, hu⟩ => ?_⟩
    rw [hv] at hp
    cases hp
    exact hq.acc u hu
  | .free hv => fun w hw => by
    rw [List.mem_singleton.1 hw]
    exact ⟨_, fun u hc => absurd hv hc.bound⟩
  | .node _ _ => nofun
  | .ground hg => fun w hw => absurd hw (isGround_iff.1 hg w)
  | .link _ hcs => hcs.acc

theorem SubstitutedList.acc {cs ds : List Pattern} :
    SubstitutedList θ cs ds → ∀ v ∈ occurrencesList cs, Acc (flip θ.Cites) v
  | .nil => nofun
  | .cons hc hcs => List.forall_mem_append.2 ⟨hc.acc, hcs.acc⟩

end

theorem irrefl_of_acc (h : Acc (flip θ.Cites) v) : ¬ Relation.TransGen θ.Cites v v := by
  induction h with
  | intro v _ ih =>
    intro hv
    obtain ⟨u, hc, hback⟩ := Relation.TransGen.head'_iff.1 hv
    rcases Relation.reflTransGen_iff_eq_or_transGen.1 hback with rfl | hback
    · exact ih v hc hv
    · exact ih u hc (hback.tail hc)

/-- Replacing ends on every pattern exactly if the bindings make no cycle. -/
theorem ends_iff_acyclic : θ.Ends ↔ θ.Acyclic := by
  refine ⟨fun h => acyclic_iff_cites.2 fun v => ?_, fun h p => ⟨_, h.substituted_apply p⟩⟩
  obtain ⟨q, hq⟩ := h (.var v)
  exact irrefl_of_acc (hq.acc v (List.mem_singleton_self v))

/-! ## More bindings -/

theorem mem_occurrences_apply :
    w ∈ (θ.apply p).occurrences ↔ ∃ u ∈ p.occurrences, w ∈ (θ.apply (.var u)).occurrences := by
  rw [apply_eq_subst]
  exact Unification.mem_occurrences_subst _ _ _

/-- What a replacement leaves is below what it begins with. -/
theorem cites_of_mem_follow {n : Nat} (h : w ∈ (θ.follow n p).occurrences) :
    ∃ u ∈ p.occurrences, Relation.ReflTransGen θ.Cites u w := by
  induction n generalizing p with
  | zero => exact ⟨w, h, .refl⟩
  | succ n ih =>
    rw [follow_succ] at h
    obtain ⟨x, hx, hbelow⟩ := ih h
    obtain ⟨u, hu, hstep⟩ := (Unification.mem_occurrences_subst _ _ _).1 hx
    refine ⟨u, hu, ?_⟩
    unfold step at hstep
    cases hb : θ.get? u with
    | none =>
      rw [hb] at hstep
      rwa [← List.mem_singleton.1 hstep]
    | some q =>
      rw [hb] at hstep
      exact .head ⟨q, hb, hstep⟩ hbelow

/-- What a substitution becomes when variables that it leaves unbound are bound. -/
structure Augments (θ θ' : Substitution) (new : String → Option Pattern) : Prop where
  get : ∀ v, θ'.get? v = (new v).or (θ.get? v)
  free : ∀ v, new v ≠ none → θ.get? v = none

/-- Whether the old bindings take a new value to a pattern of another new variable. -/
def Leads (θ : Substitution) (new : String → Option Pattern) (v w : String) : Prop :=
  ∃ p, new v = some p ∧ w ∈ (θ.apply p).occurrences ∧ new w ≠ none

namespace Augments

variable {θ' : Substitution} {new : String → Option Pattern}

theorem cites_new (h : Augments θ θ' new) (hp : new v = some p) :
    θ'.Cites v w ↔ w ∈ p.occurrences := by
  unfold Cites
  rw [h.get, hp]
  simp

theorem cites_old (h : Augments θ θ' new) (hv : new v = none) : θ'.Cites v w ↔ θ.Cites v w := by
  unfold Cites
  rw [h.get, hv]
  simp

theorem cites_of_old (h : Augments θ θ' new) (hc : θ.Cites v w) : θ'.Cites v w := by
  have hv : new v = none := Classical.byContradiction fun hnew => hc.bound (h.free v hnew)
  exact (h.cites_old hv).2 hc

theorem cites_of_leads (h : Augments θ θ' new) (hl : Leads θ new v w) :
    Relation.TransGen θ'.Cites v w := by
  obtain ⟨p, hp, hw, _⟩ := hl
  obtain ⟨u, hu, hbelow⟩ := cites_of_mem_follow hw
  have hbelow' := Relation.ReflTransGen.mono (fun _ _ => h.cites_of_old) _ _ hbelow
  exact .head' ((h.cites_new hp).2 hu) hbelow'

/-- A path to a new variable meets a first one, which the old bindings lead to, and goes on between
new ones. -/
theorem leads_of_cites (h : Augments θ θ' new) (hθ : θ.Acyclic) (hw : new w ≠ none)
    (hpath : Relation.ReflTransGen θ'.Cites v w) :
    ∃ x ∈ (θ.apply (.var v)).occurrences,
      new x ≠ none ∧ Relation.ReflTransGen (Leads θ new) x w := by
  have hself : ∀ v, new v ≠ none → v ∈ (θ.apply (.var v)).occurrences := by
    intro v hv
    rw [apply_free (h.free v hv)]
    exact List.mem_singleton_self v
  induction hpath using Relation.ReflTransGen.head_induction_on with
  | refl => exact ⟨w, hself w hw, hw, .refl⟩
  | @head v u hc _ ih =>
    obtain ⟨x, hx, hnew, hrest⟩ := ih
    cases hv : new v with
    | some p =>
      have hmem := mem_occurrences_apply.2 ⟨u, (h.cites_new hv).1 hc, hx⟩
      have hbound : new v ≠ none := by
        rw [hv]
        exact Option.some_ne_none p
      exact ⟨v, hself v hbound, hbound, .head ⟨p, hv, hmem, hnew⟩ hrest⟩
    | none =>
      obtain ⟨p, hp, hu⟩ := (h.cites_old hv).1 hc
      refine ⟨x, ?_, hnew, hrest⟩
      rw [hθ.apply_bound hp]
      exact mem_occurrences_apply.2 ⟨u, hu, hx⟩

/-- A path that leaves no new variable is one of the old bindings. -/
theorem cites_cases (h : Augments θ θ' new) (hpath : Relation.TransGen θ'.Cites v w) :
    Relation.TransGen θ.Cites v w ∨
      ∃ x, new x ≠ none ∧ Relation.ReflTransGen θ'.Cites v x ∧ Relation.TransGen θ'.Cites x w := by
  induction hpath using Relation.TransGen.head_induction_on with
  | @single v hc =>
    by_cases hv : new v = none
    · exact .inl (.single ((h.cites_old hv).1 hc))
    · exact .inr ⟨v, hv, .refl, .single hc⟩
  | @head v u hc hrest ih =>
    by_cases hv : new v = none
    · rcases ih with hold | ⟨x, hx, hto, hfrom⟩
      · exact .inl (.head ((h.cites_old hv).1 hc) hold)
      · exact .inr ⟨x, hx, .head hc hto, hfrom⟩
    · exact .inr ⟨v, hv, .refl, .head hc hrest⟩

/-- New bindings make a cycle exactly if new variables lead back to themselves. -/
theorem acyclic_iff (h : Augments θ θ' new) (hθ : θ.Acyclic) :
    θ'.Acyclic ↔ ∀ v, ¬ Relation.TransGen (Leads θ new) v v := by
  rw [acyclic_iff_cites]
  refine ⟨fun hacyclic v hv => ?_, fun hloops v hv => ?_⟩
  · exact hacyclic v (Relation.TransGen.closed (fun _ _ => h.cites_of_leads) v v hv)
  · rcases h.cites_cases hv with hold | ⟨x, hx, hto, hfrom⟩
    · exact acyclic_iff_cites.1 hθ v hold
    · obtain ⟨u, hc, hback⟩ := Relation.TransGen.head'_iff.1 (hfrom.trans_left hto)
      obtain ⟨p, hp⟩ := Option.ne_none_iff_exists'.1 hx
      obtain ⟨y, hy, hnew, hrest⟩ := h.leads_of_cites hθ hx hback
      have hmem := mem_occurrences_apply.2 ⟨u, (h.cites_new hp).1 hc, hy⟩
      exact hloops x (.head' ⟨p, hp, hmem, hnew⟩ hrest)

end Augments

end Credence.Substitution
