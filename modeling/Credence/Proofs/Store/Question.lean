import Credence.Proofs.Store.Twin
import Credence.Store.Conjunction
/-!
# Questions to twins

Twins give the same answers to whatever is asked of their atoms as long as no truth
value is looked at: which atoms there are, which of them match a pattern and in which
order, and which trees they have. Copies of the same part of twins are twins.
-/

namespace Credence

variable {α : Type} {part : Truth → α}

theorem Atom.form_of_shown {a a' : Atom} (h : a'.shown part = a.shown part) : a'.form = a.form :=
  congrArg (fun e => e.1.2) h

theorem Atom.id_of_shown {a a' : Atom} (h : a'.shown part = a.shown part) : a'.id = a.id :=
  congrArg (fun e => e.1.1) h

theorem Atom.part_of_shown {a a' : Atom} (h : a'.shown part = a.shown part) :
    part a'.truth = part a.truth :=
  congrArg (fun e => e.2.2) h

namespace Store

open Pattern

variable {s s' : Store}

/-- The atoms of an identifier look the same, if there are any. -/
theorem Twin.get?_cases (h : Twin part s s') (id : AtomId) :
    (s.get? id = none ∧ s'.get? id = none) ∨
      ∃ a a', s.get? id = some a ∧ s'.get? id = some a' ∧ a'.shown part = a.shown part := by
  have hget := h.get? id
  cases hs : s.get? id with
  | none =>
    rw [hs] at hget
    exact .inl ⟨rfl, Option.map_eq_none_iff.1 hget⟩
  | some a =>
    rw [hs] at hget
    obtain ⟨a', hs', hshown⟩ := Option.map_eq_some_iff.1 hget
    exact .inr ⟨a, a', rfl, hs', hshown⟩

theorem Twin.hasKind (h : Twin part s s') (k : Kind) (id : AtomId) :
    s'.hasKind k id = s.hasKind k id := by
  unfold Store.hasKind Atom.kind
  rcases h.get?_cases id with ⟨hs, hs'⟩ | ⟨a, a', hs, hs', hshown⟩
  · rw [hs, hs']
  · rw [hs, hs']
    dsimp only
    rw [Atom.form_of_shown hshown]

/-! ## Trees -/

theorem Twin.patternWithin (h : Twin part s s') (depth : Nat) (id : AtomId) :
    s'.patternWithin depth id = s.patternWithin depth id := by
  induction depth generalizing id with
  | zero => rfl
  | succ depth ih =>
    unfold Store.patternWithin
    rw [funext ih]
    rcases h.get?_cases id with ⟨hs, hs'⟩ | ⟨a, a', hs, hs', hshown⟩
    · rw [hs, hs']
    · rw [hs, hs']
      dsimp only
      rw [Atom.form_of_shown hshown]

theorem Twin.toPattern (h : Twin part s s') : s'.toPattern = s.toPattern :=
  funext fun id => h.patternWithin (id + 1) id

theorem Twin.toText (h : Twin part s s') : s'.toText = s.toText := by
  funext id
  unfold Store.toText
  rw [h.toPattern]

theorem Twin.toTexts (h : Twin part s s') : s'.toTexts = s.toTexts := by
  funext ids
  unfold Store.toTexts
  rw [h.toText]

theorem Twin.instantiate (h : Twin part s s') : s'.instantiate = s.instantiate := by
  funext p b
  unfold Store.instantiate Store.bindingTrees
  rw [h.toPattern]

/-! ## Matching -/

mutual

theorem Twin.matchAtom {s s' : Store} (h : Twin part s s') (p : Pattern) (id : AtomId)
    (b : Bindings) : s'.matchAtom p id b = s.matchAtom p id b := by
  cases p with
  | var v => rfl
  | node k name =>
    unfold Store.matchAtom Atom.kind Atom.name?
    rcases h.get?_cases id with ⟨hs, hs'⟩ | ⟨a, a', hs, hs', hshown⟩
    · rw [hs, hs']
    · rw [hs, hs']
      dsimp only
      rw [Atom.form_of_shown hshown]
  | link k cs =>
    unfold Store.matchAtom Atom.kind Atom.outgoing
    rcases h.get?_cases id with ⟨hs, hs'⟩ | ⟨a, a', hs, hs', hshown⟩
    · rw [hs, hs']
    · rw [hs, hs']
      dsimp only
      rw [Atom.form_of_shown hshown, Twin.matchSlots h cs]

theorem Twin.matchSlots {s s' : Store} (h : Twin part s s') (cs : List Pattern) (ids : List AtomId)
    (b : Bindings) : s'.matchSlots cs ids b = s.matchSlots cs ids b := by
  cases cs with
  | nil =>
    unfold Store.matchSlots
    rfl
  | cons c cs =>
    cases ids with
    | nil =>
      unfold Store.matchSlots
      rfl
    | cons id ids =>
      unfold Store.matchSlots
      rw [Twin.matchAtom h c]
      cases s.matchAtom c id b with
      | none => rfl
      | some b => exact Twin.matchSlots h cs ids b

end

section

variable (h : Twin part s s') (hs : s.Inv) (hs' : s'.Inv)
include h hs hs'

theorem Twin.named (name : String) : s'.named name = s.named name := by
  rw [hs'.indexed.named_eq, hs.indexed.named_eq]
  exact h.idsWhere fun form => decide ((Atom.mk 0 form .default []).name? = some name)

theorem Twin.idsOf (k : Kind) : s'.idsOf k = s.idsOf k := by
  rw [hs'.indexed.idsOf_eq, hs.indexed.idsOf_eq]
  exact h.idsWhere fun form => decide (form.kind = k)

theorem Twin.linksOver : s'.linksOver = s.linksOver := by
  funext id
  rw [hs'.indexed.linksOver_eq, hs.indexed.linksOver_eq]
  exact h.idsWhere fun form => form.outgoing.contains id

theorem Twin.findLink (k : LinkKind) (out : List AtomId) :
    s'.findLink k out = s.findLink k out := by
  rw [findLink_eq_oldest hs', findLink_eq_oldest hs, h.oldest]

theorem Twin.anchors (b : Bindings) (p : Pattern) : s'.anchors b p = s.anchors b p := by
  cases p with
  | var v => rfl
  | node k name =>
    unfold Store.anchors
    dsimp only
    rw [h.named hs hs', funext (h.hasKind k)]
  | link k cs => rfl

theorem Twin.candidates (p : Pattern) (b : Bindings) : s'.candidates p b = s.candidates p b := by
  unfold Store.candidates Store.linksOverAny
  cases p with
  | var v =>
    dsimp only
    cases b.get? v with
    | none => exact congrArg Except.ok h.ids
    | some id =>
      dsimp only
      rw [h.contains]
  | node k name =>
    dsimp only
    rw [h.named hs hs']
  | link k cs =>
    dsimp only
    rw [funext (h.anchors hs hs' b), funext h.contains, h.linksOver hs hs', funext (h.hasKind k),
      h.idsOf hs hs']

/-- A pattern has the same matches in twins. -/
theorem Twin.matchesFrom (p : Pattern) (b : Bindings) : s'.matchesFrom p b = s.matchesFrom p b := by
  have hmatch : s'.matchAtom = s.matchAtom :=
    funext fun p => funext fun id => funext fun b => h.matchAtom p id b
  unfold Store.matchesFrom
  rw [h.candidates hs hs', hmatch]

theorem Twin.lookup (p : Pattern) : s'.lookup p = s.lookup p := by
  unfold Store.lookup matchesOf
  rw [h.matchesFrom hs hs']

/-- Several patterns have the same solutions in twins. -/
theorem Twin.solutions (ps : List Pattern) (b : Bindings) :
    s'.solutions ps b = s.solutions ps b := by
  induction ps generalizing b with
  | nil => rfl
  | cons p ps ih =>
    unfold Store.solutions
    rw [h.matchesFrom hs hs', funext ih]

end

/-! ## References -/

theorem Twin.locate (h : Twin part s s') : s'.locate = s.locate := by
  funext r
  unfold Store.locate Store.find?
  rw [funext h.contains]

theorem Twin.domain (h : Twin part s s') (vs : List Value) : s'.domain vs = s.domain vs := by
  unfold Store.domain
  rw [h.locate]

theorem Twin.premises (h : Twin part s s') : s'.premises = s.premises := by
  funext vs
  unfold Store.premises
  rw [h.locate]

/-- Which atoms a copy keeps does not depend on their truth values. -/
theorem shown_closure {ids : List AtomId} {as as' : List Atom}
    (h : as'.map (Atom.shown part) = as.map (Atom.shown part)) :
    (closure ids as').1.map (Atom.shown part) = (closure ids as).1.map (Atom.shown part) ∧
      (closure ids as').2 = (closure ids as).2 := by
  induction as generalizing as' with
  | nil =>
    obtain rfl := List.map_eq_nil_iff.1 h
    exact ⟨rfl, rfl⟩
  | cons a as ih =>
    cases as' with
    | nil => cases h
    | cons a' as' =>
      rw [List.map_cons, List.map_cons] at h
      obtain ⟨hshown, hrest⟩ := List.cons.inj h
      obtain ⟨hkept, hwanted⟩ := ih hrest
      have hout : a'.outgoing = a.outgoing := congrArg Form.outgoing (Atom.form_of_shown hshown)
      rw [closure_cons, closure_cons, hwanted, Atom.id_of_shown hshown, hout]
      split
      · rw [List.map_cons, List.map_cons, hshown, hkept]
        exact ⟨rfl, rfl⟩
      · exact ⟨hkept, hwanted⟩

/-- Copies of one part of twins are twins. -/
theorem Twin.subset (h : Twin part s s') (ids : List AtomId) :
    Twin part (s.subset ids) (s'.subset ids) := by
  refine ⟨?_, h.nextId⟩
  rw [atoms_subset, atoms_subset]
  exact (shown_closure h.atoms).1

end Store

end Credence
