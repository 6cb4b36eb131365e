import Credence.Pattern.Parser
import Credence.Proofs.Pattern.Instance
/-!
# Patterns of the grammar

What the reader makes of a text has nodes of the kinds of nodes, but for variable
nodes, which it reads as variables, and links of the kinds of links. The patterns of
written rules are of this form, and so are the instances of such a pattern by trees
of atoms that are no variable nodes.
-/

namespace Credence.Pattern

/-- Whether a pattern is of the form that the reader gives. -/
inductive Grammatical : Pattern → Prop
  | var (v : String) : Grammatical (.var v)
  | node {k : NodeKind} (hk : k ≠ .variable) (name : String) : Grammatical (.node (.node k) name)
  | link (k : LinkKind) {cs : List Pattern} (hcs : ∀ c ∈ cs, Grammatical c) :
    Grammatical (.link (.link k) cs)

theorem Grammatical.wellKinded {p : Pattern} (h : p.Grammatical) : p.WellKinded := by
  induction h with
  | var v => exact trivial
  | node _ _ => exact rfl
  | link k _ ih => exact ⟨rfl, wellKindedList_iff.2 ih⟩

theorem Grammatical.subst {p : Pattern} (h : p.Grammatical) {σ : Valuation}
    (hσ : ∀ v ∈ p.occurrences, (σ v).Grammatical) : (p.subst σ).Grammatical := by
  induction h with
  | var v => exact hσ v (List.mem_singleton.2 rfl)
  | node hk name => exact .node hk name
  | link k _ ih =>
    unfold Pattern.subst
    rw [substList_eq_map]
    refine .link k fun c hc => ?_
    obtain ⟨d, hd, rfl⟩ := List.mem_map.1 hc
    exact ih d hd fun v hv => hσ v (mem_occurrencesList.2 ⟨d, hd, hv⟩)

/-! ## Parts -/

/-- The patterns below the root of a pattern. -/
inductive Part : Pattern → Pattern → Prop
  | child (k : Kind) {cs : List Pattern} {c : Pattern} (hc : c ∈ cs) : Part c (.link k cs)
  | deeper (k : Kind) {cs : List Pattern} {c q : Pattern} (hc : c ∈ cs) (h : Part q c) :
    Part q (.link k cs)

/-- What passes on from patterns to their children passes on to all their parts. -/
theorem Part.inherit {P : Pattern → Prop} (h : ∀ k cs, P (.link k cs) → ∀ c ∈ cs, P c)
    {p q : Pattern} (hq : Part q p) (hp : P p) : P q := by
  induction hq with
  | child k hc => exact h k _ hp _ hc
  | deeper k hc _ ih => exact ih (h k _ hp _ hc)

theorem Grammatical.part {p q : Pattern} (hp : p.Grammatical) (hq : Part q p) : q.Grammatical := by
  refine hq.inherit (fun k cs h => ?_) hp
  cases h with
  | link _ hcs => exact hcs

/-! ## Reading -/

theorem grammatical_of_ofVariable {v : Value} {p : Pattern} (h : ofVariable v = .ok p) :
    p.Grammatical := by
  unfold ofVariable at h
  cases hv : variableName v with
  | error e =>
    rw [hv] at h
    cases h
  | ok name =>
    rw [hv] at h
    cases h
    exact .var name

theorem grammatical_of_ofNode {k : NodeKind} {name : String} {p : Pattern}
    (h : ofNode k name = .ok p) : p.Grammatical := by
  unfold ofNode at h
  split at h
  · exact grammatical_of_ofVariable h
  · next hk =>
    cases h
    exact .node hk name

theorem eq_of_finish {p q : Pattern} {ts : List Token} (h : finish p ts = .ok q) : q = p := by
  unfold finish at h
  split at h
  · cases h
    rfl
  · split at h <;> cases h

/-- Whether the children read so far are of the form that the reader gives. -/
def Frame.Grammatical (f : Frame) : Prop := ∀ c ∈ f.children, c.Grammatical

theorem grammatical_of_place {p : Pattern} (hp : p.Grammatical) {fs fs' : List Frame}
    (hfs : ∀ f ∈ fs, f.Grammatical) (h : Frame.place p fs = some fs') :
    ∀ f ∈ fs', f.Grammatical := by
  cases fs with
  | nil => cases h
  | cons f fs =>
    cases h
    obtain ⟨hf, hfs⟩ := List.forall_mem_cons.1 hfs
    exact List.forall_mem_cons.2 ⟨List.forall_mem_cons.2 ⟨hp, hf⟩, hfs⟩

theorem Frame.Grammatical.close {f : Frame} (h : f.Grammatical) :
    Pattern.Grammatical (.link (.link f.kind) f.children.reverse) :=
  .link f.kind fun c hc => h c (List.mem_reverse.1 hc)

theorem grammatical_of_read {ts : List Token} {fs : List Frame} {p : Pattern}
    (hfs : ∀ f ∈ fs, f.Grammatical) (h : read ts fs = .ok p) : p.Grammatical := by
  fun_induction read ts fs with
  | case4 word pos rest fs _ q hq _ =>
    rw [eq_of_finish h]
    exact grammatical_of_ofVariable hq
  | case5 word pos rest fs _ q hq fs' hplace ih =>
    exact ih (grammatical_of_place (grammatical_of_ofVariable hq) hfs hplace) h
  | case9 pos rest f fs _ q _ =>
    rw [eq_of_finish h]
    exact (List.forall_mem_cons.1 hfs).1.close
  | case10 pos rest f fs _ q fs' hplace ih =>
    obtain ⟨hf, hfs⟩ := List.forall_mem_cons.1 hfs
    exact ih (grammatical_of_place hf.close hfs hplace) h
  | case14 pos head rest fs word _ k _ ih =>
    exact ih (List.forall_mem_cons.2 ⟨List.forall_mem_nil _, hfs⟩) h
  | case18 pos head fs word _ k _ name pos₁ pos₂ rest q hq _ =>
    rw [eq_of_finish h]
    exact grammatical_of_ofNode hq
  | case19 pos head fs word _ k _ name pos₁ pos₂ rest q hq fs' hplace ih =>
    exact ih (grammatical_of_place (grammatical_of_ofNode hq) hfs hplace) h
  | _ => cases h

/-- Whatever the reader accepts has its form. -/
theorem grammatical_of_parse {s : String} {p : Pattern} (h : parse s = .ok p) :
    p.Grammatical := by
  unfold parse at h
  cases hts : tokens s with
  | error e =>
    rw [hts] at h
    cases h
  | ok ts =>
    rw [hts] at h
    cases ts with
    | nil => cases h
    | cons t ts => exact grammatical_of_read (List.forall_mem_nil _) h

end Credence.Pattern
