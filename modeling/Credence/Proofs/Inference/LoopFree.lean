import Credence.Proofs.Inference.Derivation
/-!
# Derivations without loops

A tree that is derived from itself could have been derived without the detour, and
with no less confidence, since rules only lower it. So of all derivations of a tree
with at least some confidence a lowest one repeats no tree on the way down, and its
parts can be chosen in the same way.
-/

namespace Credence

open Number Pattern

variable {fact : Pattern → Float → Prop} {rules : List Rule}

/-- Derivations that apply at most some number of rules one above the other. -/
inductive DerivableIn (fact : Pattern → Float → Prop) (rules : List Rule) :
    Nat → Pattern → Float → Prop
  | fact {n : Nat} {t : Pattern} {c : Float} (h : fact t c) : DerivableIn fact rules n t c
  | rule {n : Nat} {r : Rule} (hr : r ∈ rules) (he : r.enabled = true) {σ : Valuation}
    (hσ : ∀ v, (σ v).isGround = true) {cs : List Float} (hcs : cs.length = r.premises.length)
    (h : ∀ pc ∈ r.premises.zip cs, DerivableIn fact rules n (pc.1.subst σ) pc.2) :
    DerivableIn fact rules (n + 1) (r.conclusion.subst σ) (Proof.least cs * r.reliability.toFloat)

/-- Derivations that derive by a rule no tree from itself, nor any of some trees above. -/
inductive LoopFree (fact : Pattern → Float → Prop) (rules : List Rule) :
    List Pattern → Pattern → Float → Prop
  | fact {above : List Pattern} {t : Pattern} {c : Float} (h : fact t c) :
    LoopFree fact rules above t c
  | rule {above : List Pattern} {r : Rule} (hr : r ∈ rules) (he : r.enabled = true) {σ : Valuation}
    (hσ : ∀ v, (σ v).isGround = true) {cs : List Float} (hcs : cs.length = r.premises.length)
    (hnew : r.conclusion.subst σ ∉ above)
    (h : ∀ pc ∈ r.premises.zip cs,
      LoopFree fact rules (r.conclusion.subst σ :: above) (pc.1.subst σ) pc.2) :
    LoopFree fact rules above (r.conclusion.subst σ) (Proof.least cs * r.reliability.toFloat)

/-! ## Heights -/

theorem DerivableIn.mono {m n : Nat} (hmn : m ≤ n) {t : Pattern} {c : Float}
    (h : DerivableIn fact rules m t c) : DerivableIn fact rules n t c := by
  induction h generalizing n with
  | fact h => exact .fact h
  | rule hr he hσ hcs _ ih =>
    obtain ⟨k, rfl⟩ := Nat.exists_eq_add_one_of_ne_zero (Nat.ne_zero_of_lt hmn)
    exact .rule hr he hσ hcs fun pc hpc => ih pc hpc (Nat.le_of_succ_le_succ hmn)

theorem DerivableIn.derivable {n : Nat} {t : Pattern} {c : Float}
    (h : DerivableIn fact rules n t c) : Derivable fact rules t c := by
  induction h with
  | fact h => exact .fact h
  | rule hr he hσ hcs _ ih => exact .rule hr he hσ hcs ih

theorem exists_bound {α : Type} {P : Nat → α → Prop} (hP : ∀ m n a, m ≤ n → P m a → P n a)
    {xs : List α} (h : ∀ x ∈ xs, ∃ n, P n x) : ∃ n, ∀ x ∈ xs, P n x := by
  induction xs with
  | nil => exact ⟨0, nofun⟩
  | cons x xs ih =>
    obtain ⟨m, hm⟩ := h x (List.mem_cons_self ..)
    obtain ⟨n, hn⟩ := ih fun y hy => h y (List.mem_cons_of_mem _ hy)
    refine ⟨max m n, fun y hy => ?_⟩
    rcases List.mem_cons.1 hy with rfl | hy
    · exact hP m _ y (Nat.le_max_left m n) hm
    · exact hP n _ y (Nat.le_max_right m n) (hn y hy)

/-- Every derivation has a height. -/
theorem Derivable.exists_height {t : Pattern} {c : Float} (h : Derivable fact rules t c) :
    ∃ n, DerivableIn fact rules n t c := by
  induction h with
  | fact h => exact ⟨0, .fact h⟩
  | @rule r hr he σ hσ cs hcs _ ih =>
    obtain ⟨n, hn⟩ := exists_bound
      (P := fun n (pc : Pattern × Float) => DerivableIn fact rules n (pc.1.subst σ) pc.2)
      (fun _ _ _ hmn h => DerivableIn.mono hmn h) ih
    exact ⟨n + 1, .rule hr he hσ hcs hn⟩

theorem LoopFree.derivable {above : List Pattern} {t : Pattern} {c : Float}
    (h : LoopFree fact rules above t c) : Derivable fact rules t c := by
  induction h with
  | fact h => exact .fact h
  | rule hr he hσ hcs _ _ ih => exact .rule hr he hσ hcs ih

/-! ## Removing loops -/

/-- A choice for every pair of two lists makes a list of choices. -/
theorem exists_choices {α β γ : Type} {P : α → γ → Prop} {Q : β → γ → Prop} {xs : List α}
    {ys : List β} (hlen : ys.length = xs.length)
    (h : ∀ xy ∈ xs.zip ys, ∃ z, Q xy.2 z ∧ P xy.1 z) :
    ∃ zs : List γ, zs.length = xs.length ∧ (∀ xz ∈ xs.zip zs, P xz.1 xz.2) ∧
      ∀ z ∈ zs, ∃ y ∈ ys, Q y z := by
  induction xs generalizing ys with
  | nil => exact ⟨[], rfl, nofun, nofun⟩
  | cons x xs ih =>
    cases ys with
    | nil => cases hlen
    | cons y ys =>
      obtain ⟨z, hq, hp⟩ := h (x, y) (List.mem_cons_self ..)
      obtain ⟨zs, hzs, hps, hqs⟩ := ih (Nat.succ.inj hlen) fun xy hxy =>
        h xy (List.mem_cons_of_mem _ hxy)
      refine ⟨z :: zs, congrArg (· + 1) hzs, fun xz hxz => ?_, fun w hw => ?_⟩
      · rcases List.mem_cons.1 hxz with rfl | hxz
        · exact hp
        · exact hps xz hxz
      · rcases List.mem_cons.1 hw with rfl | hw
        · exact ⟨y, List.mem_cons_self .., hq⟩
        · obtain ⟨y', hy', hq'⟩ := hqs w hw
          exact ⟨y', List.mem_cons_of_mem _ hy', hq'⟩

theorem mem_zip_of_mem_right {α β : Type} {xs : List α} {ys : List β} (h : ys.length = xs.length)
    {y : β} (hy : y ∈ ys) : ∃ x, (x, y) ∈ xs.zip ys := by
  induction xs generalizing ys with
  | nil =>
    rw [List.length_eq_zero_iff.1 h] at hy
    cases hy
  | cons x xs ih =>
    cases ys with
    | nil => cases hy
    | cons z zs =>
      rcases List.mem_cons.1 hy with rfl | hy
      · exact ⟨x, List.mem_cons_self ..⟩
      · obtain ⟨w, hw⟩ := ih (Nat.succ.inj h) hy
        exact ⟨w, List.mem_cons_of_mem _ hw⟩

/-- Whether a tree can be derived up to a height with at least some confidence. -/
def DerivableAbove (fact : Pattern → Float → Prop) (rules : List Rule) (n : Nat) (t : Pattern)
    (c : Float) : Prop := ∃ d, c ≤ d ∧ DerivableIn fact rules n t d

theorem DerivableAbove.mono {m n : Nat} (hmn : m ≤ n) {t : Pattern} {c : Float}
    (h : DerivableAbove fact rules m t c) : DerivableAbove fact rules n t c := by
  obtain ⟨d, hcd, hd⟩ := h
  exact ⟨d, hcd, hd.mono hmn⟩

/-- Every premise has at least the confidence that is asked of the tree. -/
theorem Rule.Checked.le_part {r : Rule} (hr : r.Checked) {cs : List Float}
    (hcs : ∀ x ∈ cs, inUnit x = true) {c : Float}
    (hc : c ≤ Proof.least cs * r.reliability.toFloat) {x : Float} (hx : x ∈ cs) : c ≤ x := by
  have hleast := Proof.inUnit_least hcs
  obtain ⟨hunit, hlower⟩ := inUnit_mul hleast hr.inUnit_reliability
  have hlx := le_of_le_of_inUnit hleast (hcs x hx) hlower (Proof.least_le hcs hx)
  exact le_of_le_of_inUnit hunit (hcs x hx) hc hlx

/-- If the parts are worth no less, neither is the tree that they make. -/
theorem Rule.Checked.le_of_parts {r : Rule} (hr : r.Checked) {cs es : List Float}
    (hcs : ∀ x ∈ cs, inUnit x = true) (hes : ∀ e ∈ es, inUnit e = true)
    (hlen : es.length = r.premises.length) (hle : ∀ e ∈ es, ∃ x ∈ cs, x ≤ e) {c : Float}
    (hc : c ≤ Proof.least cs * r.reliability.toFloat) :
    c ≤ Proof.least es * r.reliability.toFloat := by
  have hrel := hr.inUnit_reliability
  have hleast := Proof.inUnit_least hcs
  have hleast' := Proof.inUnit_least hes
  have hne : es ≠ [] := by
    rintro rfl
    exact hr.premises (List.length_eq_zero_iff.1 hlen.symm)
  have hmul : Proof.least cs * r.reliability.toFloat ≤ Proof.least es * r.reliability.toFloat :=
    mul_le_mul_of_inUnit hleast hleast' hrel (Proof.least_le_least hcs hes hne hle)
  exact le_of_le_of_inUnit (inUnit_mul hleast hrel).1 (inUnit_mul hleast' hrel).1 hc hmul

section

variable (hfact : ∀ t c, fact t c → inUnit c = true) (hrules : ∀ r ∈ rules, r.Checked)
include hfact hrules

theorem inUnit_of_parts {ps : List Pattern} {cs : List Float} {σ : Valuation}
    (hcs : cs.length = ps.length) (h : ∀ pc ∈ ps.zip cs, Derivable fact rules (pc.1.subst σ) pc.2) :
    ∀ x ∈ cs, inUnit x = true := by
  intro x hx
  obtain ⟨p, hp⟩ := mem_zip_of_mem_right hcs hx
  exact (h (p, x) hp).inUnit hfact hrules

/-- A lowest derivation, whose parts are lowest ones in turn, derives no tree from itself. -/
theorem exists_loopFree_of_height {n : Nat} {above : List Pattern} {t : Pattern} {c : Float}
    (h : DerivableAbove fact rules n t c)
    (habove : ∀ u ∈ above, ¬ DerivableAbove fact rules n u c) :
    ∃ d, c ≤ d ∧ LoopFree fact rules above t d := by
  induction n using Nat.strongRecOn generalizing above t c with
  | ind n ih =>
    by_cases hlower : ∃ m, m < n ∧ DerivableAbove fact rules m t c
    · -- The tree has a lower derivation: that one is taken.
      obtain ⟨m, hmn, hm⟩ := hlower
      exact ih m hmn hm fun u hu hum => habove u hu (hum.mono (Nat.le_of_lt hmn))
    · obtain ⟨d, hcd, hd⟩ := h
      cases hd with
      | fact h => exact ⟨d, hcd, .fact h⟩
      | @rule k r hr he σ hσ cs hcs hps =>
        have hcsu : ∀ x ∈ cs, inUnit x = true :=
          inUnit_of_parts hfact hrules hcs fun pc hpc => (hps pc hpc).derivable
        have hparts : ∀ pc ∈ r.premises.zip cs, ∃ e, pc.2 ≤ e ∧
            LoopFree fact rules (r.conclusion.subst σ :: above) (pc.1.subst σ) e := by
          intro pc hpc
          have hmem : pc.2 ∈ cs := (List.of_mem_zip hpc).2
          refine ih k (Nat.lt_succ_self k) ⟨pc.2, le_refl_of_inUnit (hcsu _ hmem), hps pc hpc⟩ ?_
          rintro u hu ⟨e, he, hue⟩
          have hce : c ≤ e := le_of_le_of_inUnit (hcsu _ hmem)
            (hue.derivable.inUnit hfact hrules) ((hrules r hr).le_part hcsu hcd hmem) he
          -- A premise that needed the tree itself would give it a lower derivation.
          rcases List.mem_cons.1 hu with rfl | hu
          · exact hlower ⟨k, Nat.lt_succ_self k, e, hce, hue⟩
          · exact habove u hu ⟨e, hce, hue.mono (Nat.le_succ k)⟩
        obtain ⟨es, hes, hloop, hle⟩ := exists_choices (Q := fun x e => x ≤ e)
          (P := fun p e => LoopFree fact rules (r.conclusion.subst σ :: above) (p.subst σ) e)
          hcs hparts
        have hesu : ∀ e ∈ es, inUnit e = true :=
          inUnit_of_parts hfact hrules hes fun pe hpe => (hloop pe hpe).derivable
        refine ⟨_, (hrules r hr).le_of_parts hcsu hesu hes hle hcd, .rule hr he hσ hes ?_ hloop⟩
        exact fun hin => habove _ hin ⟨_, hcd, .rule hr he hσ hcs hps⟩

end

/-- Whatever can be derived can be derived without loops, with at least the same confidence. -/
theorem Derivable.exists_loopFree (hfact : ∀ t c, fact t c → Credence.inUnit c = true)
    (hrules : ∀ r ∈ rules, r.Checked) {t : Pattern} {c : Float} (h : Derivable fact rules t c) :
    ∃ d, c ≤ d ∧ LoopFree fact rules [] t d := by
  obtain ⟨n, hn⟩ := h.exists_height
  have hc : c ≤ c := le_refl_of_inUnit (h.inUnit hfact hrules)
  exact exists_loopFree_of_height hfact hrules ⟨c, hc, hn⟩ nofun

end Credence
