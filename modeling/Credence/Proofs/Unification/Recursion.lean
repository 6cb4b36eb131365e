import Credence.Proofs.Substitution.Following
import Credence.Proofs.Table
import Credence.Proofs.Unification.Solving
import Mathlib.Data.List.Permutation
/-!
# Unification as a recursion

The same unifier found without a list of equations: both patterns are replaced, a
variable is bound to the other side after an occurs check, and the children of links
are unified one after another, each under the bindings that its predecessors left.
`Unified` is the call tree of that recursion, so a result of it is a run that ends.

Without cycles the recursion ends on every pair of patterns, with the bindings that
solving equations finds. These are the most general ones: they make the patterns
equal, and their solutions are all those solutions of the given bindings that do.
-/

namespace Credence.Unification

open Pattern Substitution

/-! ## The recursion -/

/-- What two patterns call for once they are replaced. -/
inductive Move where
  | same
  | bind (v : String) (p : Pattern)
  | children (es : List Equation)
  | clash

/-- The move for two replaced patterns. -/
def move (p q : Pattern) : Move :=
  if p = q then .same
  else match p, q with
    | .var v, q => .bind v q
    | p, .var v => .bind v p
    | .link k ps, .link l qs =>
      if k = l ∧ ps.length = qs.length then .children (ps.zip qs) else .clash
    | _, _ => .clash

/-- Whether replacing two patterns ends and calls for a move. -/
def Moves (θ : Substitution) (p q : Pattern) (m : Move) : Prop :=
  ∃ p' q', Substituted θ p p' ∧ Substituted θ q q' ∧ move p' q' = m

mutual

/-- The call tree of unifying two patterns. -/
inductive Unified : Pattern → Pattern → Substitution → Option Substitution → Prop
  | mk {p q : Pattern} {θ : Substitution} {m : Move} {result : Option Substitution} :
    Moves θ p q m → Made m θ result → Unified p q θ result

/-- The call tree of a move. A variable that has a value is unified through it. -/
inductive Made : Move → Substitution → Option Substitution → Prop
  | same {θ : Substitution} : Made .same θ (some θ)
  | value {v : String} {p q : Pattern} {θ : Substitution} {result : Option Substitution} :
    θ.get? v = some q → Unified q p θ result → Made (.bind v p) θ result
  | occurs {v : String} {p : Pattern} {θ : Substitution} :
    θ.get? v = none → Occurs θ v p true → Made (.bind v p) θ none
  | bind {v : String} {p : Pattern} {θ : Substitution} :
    θ.get? v = none → Occurs θ v p false → Made (.bind v p) θ (some (θ.insert v p))
  | children {es : List Equation} {θ : Substitution} {result : Option Substitution} :
    UnifiedEach es θ result → Made (.children es) θ result
  | clash {θ : Substitution} : Made .clash θ none

/-- The call trees of unifying pairs one after another, up to the first that fails. -/
inductive UnifiedEach : List Equation → Substitution → Option Substitution → Prop
  | nil {θ : Substitution} : UnifiedEach [] θ (some θ)
  | fail {e : Equation} {es : List Equation} {θ : Substitution} :
    Unified e.1 e.2 θ none → UnifiedEach (e :: es) θ none
  | next {e : Equation} {es : List Equation} {θ θ' : Substitution}
    {result : Option Substitution} :
    Unified e.1 e.2 θ (some θ') → UnifiedEach es θ' result → UnifiedEach (e :: es) θ result

end

/-! ## Moves -/

variable {θ : Substitution}

theorem moves_iff (h : θ.Acyclic) {p q : Pattern} {m : Move} :
    Moves θ p q m ↔ move (θ.apply p) (θ.apply q) = m := by
  constructor
  · rintro ⟨p', q', hp, hq, hm⟩
    rwa [hp.eq_apply h, hq.eq_apply h] at hm
  · intro hm
    exact ⟨_, _, h.substituted_apply p, h.substituted_apply q, hm⟩

theorem move_self (p : Pattern) : move p p = .same := if_pos rfl

theorem move_var_left {v : String} {q : Pattern} (h : var v ≠ q) :
    move (.var v) q = .bind v q := if_neg h

theorem move_var_right {p : Pattern} {v : String} (h : p ≠ var v) (hp : ∀ w, p ≠ var w) :
    move p (.var v) = .bind v p := by
  unfold move
  rw [if_neg h]
  cases p with
  | var w => exact absurd rfl (hp w)
  | node k n => rfl
  | link k ps => rfl

theorem move_links {k l : Kind} {ps qs : List Pattern} (h : link k ps ≠ link l qs) :
    move (.link k ps) (.link l qs) =
      if k = l ∧ ps.length = qs.length then .children (ps.zip qs) else .clash := if_neg h

theorem move_clash {p q : Pattern} (h : p ≠ q) (hp : ∀ v, p ≠ var v) (hq : ∀ v, q ≠ var v)
    (hlinks : ∀ k ps l qs, p = link k ps → q ≠ link l qs) : move p q = .clash := by
  unfold move
  rw [if_neg h]
  cases p with
  | var v => exact absurd rfl (hp v)
  | node k n =>
    cases q with
    | var v => exact absurd rfl (hq v)
    | node l m => rfl
    | link l qs => rfl
  | link k ps =>
    cases q with
    | var v => exact absurd rfl (hq v)
    | node l m => rfl
    | link l qs => exact absurd rfl (hlinks k ps l qs rfl)

/-! ## Equations under bindings -/

/-- Equations with the bindings applied to both sides. -/
def under (θ : Substitution) (es : List Equation) : List Equation :=
  es.map fun e => (θ.apply e.1, θ.apply e.2)

theorem apply_insert (h : θ.Acyclic) {v : String} {r : Pattern} (hv : θ.get? v = none)
    (hr : θ.Resolved r) (hvr : v ∉ r.occurrences) (p : Pattern) :
    apply (θ.insert v r) p = replace v r (θ.apply p) := by
  have hacyclic : Acyclic (θ.insert v r) := h.insert hr hvr
  have hfree : ∀ w, θ.get? w = none → w ≠ v → (θ.insert v r).get? w = none := by
    intro w hw hne
    rw [Table.get?_insert, if_neg hne.symm, hw]
  have hresolved : Resolved (θ.insert v r) r :=
    fun w hw => hfree w (hr w hw) fun e => hvr (e ▸ hw)
  -- The values under the new bindings solve the old ones, so these may be applied first.
  have hsolves : Solves (value (θ.insert v r)) θ := ((solves_insert_iff hv).1 hacyclic.solves_value).1
  rw [apply_eq_subst, ← hsolves.subst_apply p]
  refine subst_congr fun w hw => ?_
  show apply (θ.insert v r) (.var w) = _
  split
  · next hwv =>
    rw [hacyclic.apply_bound (p := r) (by rw [Table.get?_insert, if_pos hwv.symm]),
      apply_of_resolved hresolved]
  · next hwv => exact apply_free (hfree w (h.resolved_apply p w hw) hwv)

theorem under_insert (h : θ.Acyclic) {v : String} {r : Pattern} (hv : θ.get? v = none)
    (hr : θ.Resolved r) (hvr : v ∉ r.occurrences) (es : List Equation) :
    under (θ.insert v r) es = replaceAll v r (under θ es) := by
  unfold under replaceAll
  rw [List.map_map]
  refine List.map_congr_left fun e _ => ?_
  rw [apply_insert h hv hr hvr, apply_insert h hv hr hvr]
  rfl

theorem under_append (es fs : List Equation) : under θ (es ++ fs) = under θ es ++ under θ fs :=
  List.map_append

/-- Children of replaced links are replaced already. -/
theorem under_zip {k l : Kind} {ps qs : List Pattern} (hp : θ.Resolved (.link k ps))
    (hq : θ.Resolved (.link l qs)) : under θ (ps.zip qs) = ps.zip qs := by
  refine Eq.trans (List.map_congr_left fun e he => ?_) (List.map_id _)
  obtain ⟨h1, h2⟩ := List.of_mem_zip he
  have he1 : θ.apply e.1 = e.1 :=
    apply_of_resolved fun w hw => hp w (mem_occurrencesList.2 ⟨_, h1, hw⟩)
  have he2 : θ.apply e.2 = e.2 :=
    apply_of_resolved fun w hw => hq w (mem_occurrencesList.2 ⟨_, h2, hw⟩)
  rw [he1, he2]
  rfl

/-! ## The recursion ends -/

/-- Pairs are unified up to a point, and from there on if that did not fail. -/
theorem UnifiedEach.of_append {es fs : List Equation} {result : Option Substitution}
    (h : UnifiedEach (es ++ fs) θ result) :
    (UnifiedEach es θ none ∧ result = none) ∨
      ∃ θ', UnifiedEach es θ (some θ') ∧ UnifiedEach fs θ' result := by
  induction es generalizing θ with
  | nil => exact .inr ⟨θ, .nil, h⟩
  | cons e es ih =>
    cases h with
    | fail he => exact .inl ⟨.fail he, rfl⟩
    | next he hrest =>
      rcases ih hrest with ⟨hes, hr⟩ | ⟨θ', hes, hfs⟩
      · exact .inl ⟨.next he hes, hr⟩
      · exact .inr ⟨θ', .next he hes, hfs⟩

theorem under_eq_cons {es₀ es : List Equation} {p q : Pattern}
    (h : under θ es₀ = (p, q) :: es) :
    ∃ e es₁, es₀ = e :: es₁ ∧ θ.apply e.1 = p ∧ θ.apply e.2 = q ∧ under θ es₁ = es := by
  obtain ⟨e, es₁, rfl, he, hes⟩ := List.map_eq_cons_iff.1 h
  exact ⟨e, es₁, rfl, (Prod.mk.inj he).1, (Prod.mk.inj he).2, hes⟩

theorem unbound_of_apply (h : θ.Acyclic) {p : Pattern} {v : String} (hp : θ.apply p = .var v) :
    θ.get? v = none :=
  h.resolved_apply p v (by rw [hp]; exact List.mem_singleton.2 rfl)

/-- Binding a variable to the other side, as the recursion does it. -/
theorem unified_bind (h : θ.Acyclic) {e : Equation} {v : String} {r : Pattern}
    (hm : move (θ.apply e.1) (θ.apply e.2) = .bind v r) (hv : θ.get? v = none)
    (hr : θ.Resolved r) :
    Unified e.1 e.2 θ (if v ∈ r.occurrences then none else some (θ.insert v r)) := by
  refine .mk ((moves_iff h).2 hm) ?_
  have hocc : Occurs θ v r (r.occurrences.contains v) := by
    refine (occurs_iff h).2 ?_
    unfold occurs
    rw [apply_of_resolved hr]
  split
  · next hin =>
    rw [List.contains_iff_mem.2 hin] at hocc
    exact .occurs hv hocc
  · next hout =>
    rw [Bool.eq_false_iff.2 fun hc => hout (List.contains_iff_mem.1 hc)] at hocc
    exact .bind hv hocc

/-- The recursion ends on all pairs, with what solving them as equations finds. -/
theorem unifiedEach_solve (es : List Equation) (θ : Substitution) (h : θ.Acyclic)
    (es₀ : List Equation) (hes : under θ es₀ = es) : UnifiedEach es₀ θ (solve es θ) := by
  fun_induction solve es θ generalizing es₀ with
  | case1 θ =>
    obtain rfl := List.map_eq_nil_iff.1 hes
    exact .nil
  | case2 θ q rest ih =>
    obtain ⟨e, es₁, rfl, h1, h2, hrest⟩ := under_eq_cons hes
    have hm : move (θ.apply e.1) (θ.apply e.2) = .same := by rw [h1, h2, move_self]
    exact .next (.mk ((moves_iff h).2 hm) .same) (ih h es₁ hrest)
  | case3 θ rest v q hin hne =>
    obtain ⟨e, es₁, rfl, h1, h2, -⟩ := under_eq_cons hes
    have hun := unified_bind h (e := e) (by rw [h1, h2, move_var_left hne])
      (unbound_of_apply h h1) (h2 ▸ h.resolved_apply e.2)
    rw [if_pos hin] at hun
    exact .fail hun
  | case4 θ rest v q hnot hne ih =>
    obtain ⟨e, es₁, rfl, h1, h2, hrest⟩ := under_eq_cons hes
    have hv : θ.get? v = none := unbound_of_apply h h1
    have hq : θ.Resolved q := h2 ▸ h.resolved_apply e.2
    have hun := unified_bind h (e := e) (by rw [h1, h2, move_var_left hne]) hv hq
    rw [if_neg hnot] at hun
    exact .next hun (ih (h.insert hq hnot) es₁ (by rw [under_insert h hv hq hnot, hrest]))
  | case5 θ rest p v hp hin hne =>
    obtain ⟨e, es₁, rfl, h1, h2, -⟩ := under_eq_cons hes
    have hun := unified_bind h (e := e) (by rw [h1, h2, move_var_right hne hp])
      (unbound_of_apply h h2) (h1 ▸ h.resolved_apply e.1)
    rw [if_pos hin] at hun
    exact .fail hun
  | case6 θ rest p v hp hnot hne ih =>
    obtain ⟨e, es₁, rfl, h1, h2, hrest⟩ := under_eq_cons hes
    have hv : θ.get? v = none := unbound_of_apply h h2
    have hr : θ.Resolved p := h1 ▸ h.resolved_apply e.1
    have hun := unified_bind h (e := e) (by rw [h1, h2, move_var_right hne hp]) hv hr
    rw [if_neg hnot] at hun
    exact .next hun (ih (h.insert hr hnot) es₁ (by rw [under_insert h hv hr hnot, hrest]))
  | case7 θ rest k ps l qs hkl hne ih =>
    obtain ⟨e, es₁, rfl, h1, h2, hrest⟩ := under_eq_cons hes
    have hm : move (θ.apply e.1) (θ.apply e.2) = .children (ps.zip qs) := by
      rw [h1, h2, move_links hne, if_pos hkl]
    have hzip : under θ (ps.zip qs) = ps.zip qs :=
      under_zip (h1 ▸ h.resolved_apply e.1) (h2 ▸ h.resolved_apply e.2)
    -- The children come first and the other pairs after them, as in the list of equations.
    rcases (ih h (ps.zip qs ++ es₁) (by rw [under_append, hzip, hrest])).of_append with
      ⟨hes, hr⟩ | ⟨θ', hes, hafter⟩
    · rw [hr]
      exact .fail (.mk ((moves_iff h).2 hm) (.children hes))
    · exact .next (.mk ((moves_iff h).2 hm) (.children hes)) hafter
  | case8 θ rest k ps l qs hkl hne =>
    obtain ⟨e, es₁, rfl, h1, h2, -⟩ := under_eq_cons hes
    have hm : move (θ.apply e.1) (θ.apply e.2) = .clash := by
      rw [h1, h2, move_links hne, if_neg hkl]
    exact .fail (.mk ((moves_iff h).2 hm) .clash)
  | case9 θ p q rest hne hp hq hlinks =>
    obtain ⟨e, es₁, rfl, h1, h2, -⟩ := under_eq_cons hes
    have hm : move (θ.apply e.1) (θ.apply e.2) = .clash := by
      rw [h1, h2, move_clash hne hp hq hlinks]
    exact .fail (.mk ((moves_iff h).2 hm) .clash)

/-- The recursion ends on two patterns, with their unifier. -/
theorem unified_unify (h : θ.Acyclic) (p q : Pattern) : Unified p q θ (unify p q θ) := by
  have heach : UnifiedEach [(p, q)] θ (unify p q θ) := unifiedEach_solve _ θ h [(p, q)] rfl
  generalize unify p q θ = result at heach
  cases heach with
  | fail hun => exact hun
  | next hun hnil =>
    cases hnil
    exact hun

/-! ## It has one result -/

mutual

theorem Unified.unique {θ : Substitution} (h : θ.Acyclic) {p q : Pattern} {r r' : Option Substitution} :
    Unified p q θ r → Unified p q θ r' → r = r'
  | .mk hm hr, .mk hm' hr' => by
    obtain rfl := ((moves_iff h).1 hm).symm.trans ((moves_iff h).1 hm')
    exact hr.unique h hr'

theorem Made.unique {θ : Substitution} (h : θ.Acyclic) {m : Move} {r r' : Option Substitution} :
    Made m θ r → Made m θ r' → r = r'
  | .same, .same => rfl
  | .value hv hr, .value hv' hr' => by
    obtain rfl := Option.some.inj (hv.symm.trans hv')
    exact hr.unique h hr'
  | .value hv _, .occurs hn _ => by simp [hv] at hn
  | .value hv _, .bind hn _ => by simp [hv] at hn
  | .occurs hn _, .value hv _ => by simp [hv] at hn
  | .occurs _ _, .occurs _ _ => rfl
  | .occurs _ ho, .bind _ ho' => by cases (ho.eq_occurs h).trans (ho'.eq_occurs h).symm
  | .bind hn _, .value hv _ => by simp [hv] at hn
  | .bind _ ho, .occurs _ ho' => by cases (ho.eq_occurs h).trans (ho'.eq_occurs h).symm
  | .bind _ _, .bind _ _ => rfl
  | .children hr, .children hr' => hr.unique h hr'
  | .clash, .clash => rfl

theorem UnifiedEach.unique {θ : Substitution} (h : θ.Acyclic) {es : List Equation}
    {r r' : Option Substitution} : UnifiedEach es θ r → UnifiedEach es θ r' → r = r'
  | .nil, .nil => rfl
  | .fail _, .fail _ => rfl
  | .fail he, .next he' _ => by cases he.unique h he'
  | .next he _, .fail he' => by cases he.unique h he'
  | .next (e := e) he hes, .next he' hes' => by
    obtain rfl := Option.some.inj (he.unique h he')
    -- The bindings that the first pair leaves are those of a unifier, so they make no cycle.
    have hun := he.unique h (unified_unify h e.1 e.2)
    exact hes.unique (unifies_of_unify h hun.symm).acyclic hes'

end

theorem unified_iff (h : θ.Acyclic) {p q : Pattern} {result : Option Substitution} :
    Unified p q θ result ↔ unify p q θ = result :=
  ⟨fun hr => (unified_unify h p q).unique h hr, fun hr => hr ▸ unified_unify h p q⟩

/-! ## Most general unifiers -/

/-- Bindings that extend others and stand for all their solutions that make two patterns equal. -/
structure MostGeneral (p q : Pattern) (θ θ' : Substitution) : Prop where
  acyclic : θ'.Acyclic
  keeps : ∀ v r, θ.get? v = some r → θ'.get? v = some r
  equal : θ'.apply p = θ'.apply q
  solves_iff : ∀ σ, Solves σ θ' ↔ Solves σ θ ∧ p.subst σ = q.subst σ

theorem mostGeneral_of_unify (h : θ.Acyclic) {θ' : Substitution} {p q : Pattern}
    (hun : unify p q θ = some θ') : MostGeneral p q θ θ' := by
  obtain ⟨hacyclic, hkeeps, hiff, -⟩ := unifies_of_unify h hun
  -- The bindings themselves give a solution, the one that applying them follows.
  have hequal := ((hiff _).1 hacyclic.solves_value).2
  rw [← apply_eq_subst, ← apply_eq_subst] at hequal
  exact ⟨hacyclic, hkeeps, hequal, hiff⟩

/-- Without cycles unification ends with one result, that of `unify`: most general bindings, or
nothing if no solution of the given ones makes the patterns equal. -/
theorem unify_mostGeneral (h : θ.Acyclic) (p q : Pattern) :
    (∀ result, Unified p q θ result ↔ unify p q θ = result) ∧
      match unify p q θ with
      | some θ' => MostGeneral p q θ θ'
      | none => ∀ σ, Solves σ θ → p.subst σ ≠ q.subst σ := by
  refine ⟨fun result => unified_iff h, ?_⟩
  cases hun : unify p q θ with
  | some θ' => exact mostGeneral_of_unify h hun
  | none => exact fun σ hσ => ne_of_unify_eq_none h hun hσ

/-- The bindings of `$X` to a list of `$Y` and of `$Y` to a concept. -/
def chained : Substitution :=
  ⟨[("$X", .link (.link .list) [.var "$Y"]), ("$Y", .node (.node .concept) "a")]⟩

theorem acyclic_chained : chained.Acyclic := by
  refine ⟨fun v => if v = "$X" then 1 else 0, fun v p hv w hw hb => ?_⟩
  rcases List.mem_cons.1 (Table.mem_of_find hv) with he | he
  · obtain ⟨rfl, rfl⟩ := Prod.mk.inj he
    rw [List.mem_singleton.1 hw]
    decide
  · obtain ⟨rfl, rfl⟩ := Prod.mk.inj (List.mem_singleton.1 he)
    cases hw

/-- The value of a variable is found through a chain of bindings. -/
theorem unify_mostGeneral_chained : chained.Acyclic ∧
    MostGeneral (.link (.link .list) [.var "$X", .var "$Z"])
      (.link (.link .list) [.var "$Z", .var "$X"]) chained
      (chained.insert "$Z" (.link (.link .list) [.node (.node .concept) "a"])) := by
  have hun : unify (.link (.link .list) [.var "$X", .var "$Z"])
      (.link (.link .list) [.var "$Z", .var "$X"]) chained =
        some (chained.insert "$Z" (.link (.link .list) [.node (.node .concept) "a"])) := by cbv
  have hout := (unify_mostGeneral acyclic_chained (.link (.link .list) [.var "$X", .var "$Z"])
    (.link (.link .list) [.var "$Z", .var "$X"])).2
  rw [hun] at hout
  exact ⟨acyclic_chained, hout⟩

end Credence.Unification
