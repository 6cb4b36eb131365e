import Credence.Proofs.Store.Reachable
/-!
# What a pattern means

Under bindings a pattern denotes an atom: a variable the atom bound to it, a node the
atoms of its kind and name, a link the atoms of its kind whose children are denoted
slot by slot. Matching an atom finds the least extension of the bindings under which
the pattern denotes it, if there is one.
-/

namespace Credence

/-- Bindings that agree with others and may bind more. -/
def Bindings.Extends (b b' : Bindings) : Prop :=
  ∀ v id, b.get? v = some id → b'.get? v = some id

namespace Bindings

theorem Extends.refl (b : Bindings) : Extends b b := fun _ _ h => h

theorem Extends.trans {a b c : Bindings} (h : Extends a b) (h' : Extends b c) : Extends a c :=
  fun v id hv => h' v id (h v id hv)

theorem Extends.insert {b : Bindings} {v : String} (h : b.get? v = none) (id : AtomId) :
    Extends b (b.insert v id) := by
  intro w x hw
  rw [Table.get?_insert]
  split
  · next hvw =>
    rw [hvw, hw] at h
    cases h
  · exact hw

end Bindings

namespace Store

mutual

/-- Whether a pattern denotes an atom under bindings. -/
def Denotes (s : Store) (b : Bindings) : Pattern → AtomId → Prop
  | .var v, id => b.get? v = some id
  | .node k name, id => ∃ a, s.get? id = some a ∧ a.kind = k ∧ a.name? = some name
  | .link k cs, id => ∃ a, s.get? id = some a ∧ a.kind = k ∧ s.DenoteEach b cs a.outgoing

/-- Whether patterns denote the atoms of the same places, as many as there are. -/
def DenoteEach (s : Store) (b : Bindings) : List Pattern → List AtomId → Prop
  | [], [] => True
  | c :: cs, id :: ids => s.Denotes b c id ∧ s.DenoteEach b cs ids
  | _, _ => False

end

variable {s : Store}

theorem length_of_denoteEach {b : Bindings} {cs : List Pattern} {ids : List AtomId}
    (h : s.DenoteEach b cs ids) : ids.length = cs.length := by
  induction cs generalizing ids with
  | nil =>
    cases ids with
    | nil => rfl
    | cons => exact absurd h (by simp [DenoteEach])
  | cons c cs ih =>
    cases ids with
    | nil => exact absurd h (by simp [DenoteEach])
    | cons id ids =>
      rw [DenoteEach] at h
      rw [List.length_cons, List.length_cons, ih h.2]

/-! ## Extensions -/

mutual

theorem Denotes.mono {b b' : Bindings} (he : b.Extends b') {p : Pattern} {id : AtomId}
    (h : s.Denotes b p id) : s.Denotes b' p id := by
  cases p with
  | var v => exact he v id h
  | node k name => exact h
  | link k cs =>
    rw [Denotes] at h ⊢
    obtain ⟨a, ha, hk, hcs⟩ := h
    exact ⟨a, ha, hk, DenoteEach.mono he hcs⟩

theorem DenoteEach.mono {b b' : Bindings} (he : b.Extends b') {cs : List Pattern}
    {ids : List AtomId} (h : s.DenoteEach b cs ids) : s.DenoteEach b' cs ids := by
  cases cs with
  | nil => cases ids <;> exact h
  | cons c cs =>
    cases ids with
    | nil => exact h
    | cons id ids =>
      rw [DenoteEach] at h ⊢
      exact ⟨Denotes.mono he h.1, DenoteEach.mono he h.2⟩

end

/-- Bindings that extend others by the given variables only. -/
def Binds (b b' : Bindings) (vs : List String) : Prop :=
  b.Extends b' ∧ ∀ v, b'.contains v = true ↔ b.contains v = true ∨ v ∈ vs

theorem Binds.nil (b : Bindings) : Binds b b [] :=
  ⟨.refl b, fun v => by simp⟩

theorem Binds.append {a b c : Bindings} {vs ws : List String} (h : Binds a b vs)
    (h' : Binds b c ws) : Binds a c (vs ++ ws) := by
  refine ⟨h.1.trans h'.1, fun v => ?_⟩
  rw [h'.2 v, h.2 v, List.mem_append, or_assoc]

/-- Nothing has to be added for a variable that is bound already. -/
theorem Binds.bound {b : Bindings} {v : String} {id : AtomId} (hv : b.get? v = some id) :
    Binds b b [v] := by
  refine ⟨.refl b, fun w => ?_⟩
  rw [List.mem_singleton]
  constructor
  · exact Or.inl
  · rintro (hw | rfl)
    · exact hw
    · unfold Table.contains
      rw [hv]
      rfl

theorem Binds.insert {b : Bindings} {v : String} (hv : b.get? v = none) (id : AtomId) :
    Binds b (b.insert v id) [v] := by
  refine ⟨.insert hv id, fun w => ?_⟩
  unfold Table.contains
  rw [Table.get?_insert, List.mem_singleton]
  split
  · next hvw => simp [hvw]
  · next hvw => simp [Ne.symm hvw]

/-! ## Matching finds the least extension -/

mutual

/-- A match binds the variables of the pattern and denotes the atom. -/
theorem matchAtom_sound {p : Pattern} {id : AtomId} {b b' : Bindings}
    (h : s.matchAtom p id b = some b') : Binds b b' p.occurrences ∧ s.Denotes b' p id := by
  cases p with
  | var v =>
    unfold matchAtom at h
    unfold Pattern.occurrences Denotes
    split at h
    · next bound hv =>
      split at h
      · next heq =>
        cases h
        exact ⟨.bound hv, heq ▸ hv⟩
      · cases h
    · next hv =>
      cases h
      exact ⟨.insert hv id, by rw [Table.get?_insert, if_pos rfl]⟩
  | node k name =>
    unfold matchAtom at h
    unfold Pattern.occurrences Denotes
    split at h
    · next a ha =>
      split at h
      · next hkn =>
        cases h
        exact ⟨.nil b, a, ha, hkn.1, hkn.2⟩
      · cases h
    · cases h
  | link k cs =>
    unfold matchAtom at h
    unfold Pattern.occurrences Denotes
    split at h
    · next a ha =>
      split at h
      · next hk =>
        obtain ⟨hb, hd⟩ := matchSlots_sound hk.2 h
        exact ⟨hb, a, ha, hk.1, hd⟩
      · cases h
    · cases h

theorem matchSlots_sound {cs : List Pattern} {ids : List AtomId} {b b' : Bindings}
    (hlen : ids.length = cs.length) (h : s.matchSlots cs ids b = some b') :
    Binds b b' (Pattern.occurrencesList cs) ∧ s.DenoteEach b' cs ids := by
  cases cs with
  | nil =>
    obtain rfl := List.length_eq_zero_iff.1 hlen
    unfold matchSlots at h
    cases h
    exact ⟨.nil b, trivial⟩
  | cons c cs =>
    cases ids with
    | nil => cases hlen
    | cons id ids =>
      unfold matchSlots at h
      unfold Pattern.occurrencesList DenoteEach
      split at h
      · next b₁ hc =>
        obtain ⟨hb1, hd1⟩ := matchAtom_sound hc
        obtain ⟨hb2, hd2⟩ := matchSlots_sound (Nat.succ.inj hlen) h
        exact ⟨hb1.append hb2, hd1.mono hb2.1, hd2⟩
      · cases h

end

mutual

/-- Bindings under which the pattern denotes the atom extend the bindings of the match. -/
theorem matchAtom_complete {p : Pattern} {id : AtomId} {b b₁ : Bindings} (he : b.Extends b₁)
    (h : s.Denotes b₁ p id) : ∃ b', s.matchAtom p id b = some b' ∧ b'.Extends b₁ := by
  cases p with
  | var v =>
    unfold matchAtom
    unfold Denotes at h
    cases hv : b.get? v with
    | some bound =>
      have hbound : bound = id := Option.some.inj ((he v bound hv).symm.trans h)
      exact ⟨b, if_pos hbound, he⟩
    | none =>
      refine ⟨b.insert v id, rfl, fun w x hw => ?_⟩
      rw [Table.get?_insert] at hw
      split at hw
      · next hvw => rw [← hvw, ← hw, h]
      · exact he w x hw
  | node k name =>
    unfold matchAtom
    unfold Denotes at h
    obtain ⟨a, ha, hk, hn⟩ := h
    simp only [ha]
    exact ⟨b, if_pos ⟨hk, hn⟩, he⟩
  | link k cs =>
    unfold matchAtom
    unfold Denotes at h
    obtain ⟨a, ha, hk, hcs⟩ := h
    obtain ⟨b', hb', he'⟩ := matchSlots_complete he hcs
    simp only [ha]
    exact ⟨b', by rw [if_pos ⟨hk, length_of_denoteEach hcs⟩, hb'], he'⟩

theorem matchSlots_complete {cs : List Pattern} {ids : List AtomId} {b b₁ : Bindings}
    (he : b.Extends b₁) (h : s.DenoteEach b₁ cs ids) :
    ∃ b', s.matchSlots cs ids b = some b' ∧ b'.Extends b₁ := by
  cases cs with
  | nil =>
    unfold matchSlots
    exact ⟨b, rfl, he⟩
  | cons c cs =>
    cases ids with
    | nil => exact absurd h (by simp [DenoteEach])
    | cons id ids =>
      unfold DenoteEach at h
      obtain ⟨b₂, hb2, he2⟩ := matchAtom_complete he h.1
      obtain ⟨b₃, hb3, he3⟩ := matchSlots_complete he2 h.2
      unfold matchSlots
      simp only [hb2]
      exact ⟨b₃, hb3, he3⟩

end

/-- Bindings that extend others by the variables of a pattern, which then denotes an atom. -/
structure IsMatch (s : Store) (p : Pattern) (b b' : Bindings) (id : AtomId) : Prop where
  extension : b.Extends b'
  domain : ∀ v, b'.contains v = true ↔ b.contains v = true ∨ v ∈ p.vars
  denotes : s.Denotes b' p id

theorem isMatch_of_matchAtom {p : Pattern} {id : AtomId} {b b' : Bindings}
    (h : s.matchAtom p id b = some b') : s.IsMatch p b b' id := by
  obtain ⟨⟨he, hdom⟩, hd⟩ := matchAtom_sound h
  refine ⟨he, fun v => ?_, hd⟩
  rw [hdom v]
  unfold Pattern.vars
  rw [mem_distinct]

/-- There is one extension at most: it binds what the match binds. -/
theorem matchAtom_of_isMatch {p : Pattern} {id : AtomId} {b b₁ : Bindings}
    (h : s.IsMatch p b b₁ id) :
    ∃ b', s.matchAtom p id b = some b' ∧ ∀ v, b₁.get? v = b'.get? v := by
  obtain ⟨b', hb', he'⟩ := matchAtom_complete h.extension h.denotes
  refine ⟨b', hb', fun v => ?_⟩
  have hm := isMatch_of_matchAtom hb'
  cases hv : b'.get? v with
  | some x => exact he' v x hv
  | none =>
    cases hv1 : b₁.get? v with
    | none => rfl
    | some x =>
      have h1 : b₁.contains v = true := by
        unfold Table.contains
        rw [hv1]
        rfl
      have h2 : b'.contains v = true := (hm.domain v).2 ((h.domain v).1 h1)
      unfold Table.contains at h2
      rw [hv] at h2
      cases h2

end Store

end Credence
