import Credence.Proofs.Pattern.Rename
import Credence.Proofs.Table
import Credence.Proofs.Store.Tree
/-!
# Matching renamed patterns

The matches of a pattern do not depend on the names of its variables: a renamed pattern
has the same candidates and matches the same atoms, under renamed bindings.
-/

namespace Credence

open Function (Injective)
open Pattern

variable {f : String → String}

/-- The bindings with their variables renamed. -/
def Bindings.rename (f : String → String) (b : Bindings) : Bindings := b.relabel f id

/-- The match with the variables of its bindings renamed. -/
def Match.rename (f : String → String) (m : Match) : Match := ⟨m.bindings.rename f, m.atomId⟩

namespace Store

theorem get?_rename (hf : Injective f) (b : Bindings) (v : String) : (b.rename f).get? (f v) = b.get? v :=
  (Table.get?_relabel hf b v).trans Option.map_id_apply

mutual

theorem matchAtom_rename (hf : Injective f) (s : Store) (p : Pattern) (id : AtomId) (b : Bindings) :
    s.matchAtom (p.rename f) id (b.rename f) = (s.matchAtom p id b).map (Bindings.rename f) := by
  cases p with
  | var v =>
    show s.matchAtom (.var (f v)) id (b.rename f) = _
    unfold matchAtom
    rw [get?_rename hf]
    cases b.get? v with
    | none => exact congrArg some (Table.insert_relabel hf b v id)
    | some bound =>
      dsimp only
      split <;> rfl
  | node k name =>
    show s.matchAtom (.node k name) id (b.rename f) = _
    unfold matchAtom
    cases s.get? id with
    | none => rfl
    | some a =>
      dsimp only
      split <;> rfl
  | link k cs =>
    rw [rename_link]
    unfold matchAtom
    cases s.get? id with
    | none => rfl
    | some a =>
      dsimp only
      rw [List.length_map, matchSlots_rename hf s cs a.outgoing b]
      split <;> rfl

theorem matchSlots_rename (hf : Injective f) (s : Store) (cs : List Pattern) (ids : List AtomId) (b : Bindings) :
    s.matchSlots (cs.map (Pattern.rename f)) ids (b.rename f) =
      (s.matchSlots cs ids b).map (Bindings.rename f) := by
  cases cs with
  | nil =>
    rw [List.map_nil]
    unfold matchSlots
    rfl
  | cons c cs =>
    cases ids with
    | nil =>
      rw [List.map_cons]
      unfold matchSlots
      rfl
    | cons id ids =>
      rw [List.map_cons]
      unfold matchSlots
      rw [matchAtom_rename hf s c id b]
      cases s.matchAtom c id b with
      | none => rfl
      | some b => exact matchSlots_rename hf s cs ids b

end

section Match

variable (hf : Injective f)
include hf

theorem anchors_rename (s : Store) (b : Bindings) (p : Pattern) :
    s.anchors (b.rename f) (p.rename f) = s.anchors b p := by
  cases p with
  | var v => exact congrArg (Option.map _) (get?_rename hf b v)
  | node k name => rfl
  | link k cs => rfl

theorem candidates_rename (s : Store) (p : Pattern) (b : Bindings) :
    s.candidates (p.rename f) (b.rename f) = s.candidates p b := by
  cases p with
  | var v =>
    show s.candidates (.var (f v)) (b.rename f) = _
    unfold candidates
    dsimp only
    rw [get?_rename hf]
  | node k name => rfl
  | link k cs =>
    rw [rename_link]
    unfold candidates
    dsimp only
    have hanchors : s.anchors (b.rename f) ∘ Pattern.rename f = s.anchors b :=
      funext (anchors_rename hf s b)
    rw [List.findSome?_map, hanchors]

/-- A renamed pattern matches the atoms that the pattern matches, under renamed bindings. -/
theorem matchesFrom_rename (s : Store) (p : Pattern) (b : Bindings) :
    s.matchesFrom (p.rename f) (b.rename f) =
      (s.matchesFrom p b).map (List.map (Match.rename f)) := by
  unfold matchesFrom
  rw [candidates_rename hf]
  cases s.candidates p b with
  | error e => rfl
  | ok ids =>
    refine congrArg Except.ok ?_
    rw [List.map_filterMap]
    refine List.filterMap_congr fun id _ => ?_
    rw [matchAtom_rename hf]
    cases s.matchAtom p id b <;> rfl

theorem matchesOf_rename (s : Store) (p : Pattern) :
    s.matchesOf (p.rename f) = (s.matchesOf p).map (List.map (Match.rename f)) :=
  matchesFrom_rename hf s p .empty

theorem lookupsFor_rename (p : Pattern) (b : Bindings) :
    lookupsFor (p.rename f) (b.rename f) = lookupsFor p b := by
  cases p with
  | var v => rfl
  | node k name => rfl
  | link k cs =>
    rw [rename_link]
    -- The first child whose atom is known decides, and which children those are is kept.
    induction cs with
    | nil => rfl
    | cons c cs ih =>
      unfold lookupsFor at ih ⊢
      dsimp only at ih ⊢
      rw [List.map_cons, List.find?_cons, List.find?_cons]
      cases c with
      | var v =>
        have hget : ((b.rename f).get? (f v)).isSome = (b.get? v).isSome :=
          congrArg Option.isSome (get?_rename hf b v)
        dsimp only [Pattern.rename, subst]
        rw [hget]
        cases (b.get? v).isSome with
        | true => rfl
        | false => exact ih
      | node k name => rfl
      | link k cs' => exact ih

end Match

/-! ## Trees of a plain store -/

theorem isGround_of_patternWithin {s : Store} (hp : s.Plain) {depth : Nat} {id : AtomId}
    {p : Pattern} (h : s.patternWithin depth id = .ok p) : p.isGround = true := by
  induction depth generalizing id p with
  | zero => cases h
  | succ depth ih =>
    unfold patternWithin at h
    split at h
    · cases h
    · next a ha =>
      split at h
      · next k name hform =>
        have hk : k ≠ .variable := hp.ne_variable (List.mem_of_find?_eq_some ha) hform
        unfold patternOfNode at h
        split at h
        · exact absurd rfl hk
        · cases h
          rfl
      · next k out hform =>
        obtain ⟨cs, hcs, rfl⟩ := map_eq_ok h
        refine isGround_iff.2 fun v hv => ?_
        obtain ⟨c, hc, hv⟩ := mem_occurrencesList.1 hv
        obtain ⟨ref, _, href⟩ := exists_of_mem_forall₂ (forall₂_of_mapM hcs) hc
        exact isGround_iff.1 (ih href) v hv

end Store

end Credence
