import Credence.Proofs.Store.Ensuring
/-!
# Assertions that fail

An assertion is refused before anything is stored if its text cannot be read, its
tree has variables or its truth value is none. A ground tree that does not fit fails
later: what is complete before the part at fault stays, under the usual truth value,
and everything that was there is left as it was. So a failed assertion changes a store
exactly if something was missing in front of the fault.
-/

namespace Credence.Store

open Pattern

variable {s s' : Store}

/-! ## Stores that only gain atoms -/

/-- Whether a store differs from another by further atoms with the usual truth value only. -/
structure Adds (s s' : Store) (new : List Atom) : Prop where
  atoms : s'.atoms = s.atoms ++ new
  usual : ∀ a ∈ new, a.truth = .default
  nextId : s'.nextId = s.nextId + new.length
  tally : s'.tally = { s.tally with atomsAdded := s.tally.atomsAdded + new.length }

theorem Adds.append {u : Store} {new more : List Atom} (h : Adds s u new) (h' : Adds u s' more) :
    Adds s s' (new ++ more) where
  atoms := by rw [h'.atoms, h.atoms, List.append_assoc]
  usual := List.forall_mem_append.2 ⟨h.usual, h'.usual⟩
  nextId := by rw [h'.nextId, h.nextId, List.length_append, Nat.add_assoc]
  tally := by rw [h'.tally, h.tally, List.length_append, Nat.add_assoc]

theorem adds_inserted (s : Store) (form : Form) (written : List Value) :
    Adds s (s.inserted form .default written) [⟨s.nextId, form, .default, written⟩] where
  atoms := atoms_inserted s form .default written
  usual := List.forall_mem_singleton.2 rfl
  nextId := rfl
  tally := rfl

theorem adds_of_plants {J : Pattern → Truth → Prop} (hJ : ∀ q t, J q t → t = .default)
    (h : Plants J s s') : ∃ new, Adds s s' new := by
  induction h with
  | refl => exact ⟨[], ⟨(List.append_nil _).symm, nofun, rfl, rfl⟩⟩
  | tail _ hstep ih =>
    obtain ⟨new, hnew⟩ := ih
    obtain ⟨written, hj, _, _, _⟩ := hstep
    rw [hJ _ _ hj]
    exact ⟨_, hnew.append (adds_inserted _ _ written)⟩

/-! ## What is left over -/

/-- What a tree that does not fit leaves: the trees in front of its fault, as if these alone had
been asserted. -/
structure LeftOver (s : Store) (p : Pattern) (s' : Store) : Prop where
  unfit : p.fits = false
  trees : s' = ((ensureList p.beforeFault).run.run s).2
  stored : ∀ q ∈ p.beforeFault, s'.existing q ≠ none
  adds : ∃ new, Adds s s' new
  unchanged_iff : s' = s ↔ ∀ q ∈ p.beforeFault, s.existing q ≠ none

mutual

theorem fitsList_beforeFault (p : Pattern) : fitsList p.beforeFault = true := by
  cases p with
  | var v => rfl
  | node k name => rfl
  | link k cs => exact fitsList_beforeFaultList cs

theorem fitsList_beforeFaultList (cs : List Pattern) : fitsList (beforeFaultList cs) = true := by
  cases cs with
  | nil => rfl
  | cons c cs =>
    unfold beforeFaultList
    split
    · next hc => exact Bool.and_eq_true_iff.2 ⟨hc, fitsList_beforeFaultList cs⟩
    · exact fitsList_beforeFault c

end

theorem existing_ne_none_of_list {cs : List Pattern} {ids : List AtomId}
    (h : s.existingList cs = some ids) : ∀ c ∈ cs, s.existing c ≠ none := by
  intro c hc
  obtain ⟨id, _, hid⟩ := exists_of_mem_forall₂ (existingList_eq_some_iff.1 h).flip hc
  rw [hid]
  exact Option.some_ne_none id

theorem exists_existingList {cs : List Pattern} (h : ∀ c ∈ cs, s.existing c ≠ none) :
    ∃ ids, s.existingList cs = some ids := by
  induction cs with
  | nil => exact ⟨[], rfl⟩
  | cons c cs ih =>
    obtain ⟨hc, hcs⟩ := List.forall_mem_cons.1 h
    obtain ⟨id, hid⟩ := Option.ne_none_iff_exists'.1 hc
    obtain ⟨ids, hids⟩ := ih hcs
    exact ⟨id :: ids, existingList_cons_eq_some.2 ⟨id, ids, hid, hids, rfl⟩⟩

theorem leftOver_of_not_fits (h : s.Inv) {p : Pattern} (hp : p.fits = false) :
    LeftOver s p ((ensureList p.beforeFault).run.run s).2 := by
  obtain ⟨ids, u, hrun, hids⟩ := run_ensureList_of_fits h (fitsList_beforeFault p)
  refine ⟨hp, rfl, ?_, ?_, ?_⟩
  · rw [hrun]
    exact existing_ne_none_of_list hids
  · exact adds_of_plants (fun q t hq => hq.2) (plants_ensureList h p.beforeFault)
  · rw [hrun]
    constructor
    · rintro rfl
      exact existing_ne_none_of_list hids
    · intro hall
      obtain ⟨ids', hids'⟩ := exists_existingList hall
      rw [run_ensureList_of_existing h hids'] at hrun
      cases hrun
      rfl

/-! ## Asserting -/

/-- A ground tree is stored, and then its root gets the truth value that is given. -/
theorem assert_of_isGround {p : Pattern} (hp : p.isGround = true) (truth : Option Truth) :
    assert p truth = (ensure truth p >>= fun root =>
      truth.elim (pure root) fun t => settle root t >>= fun _ => pure root) := by
  unfold assert
  rw [hp]
  cases truth <;> rfl

/-- A ground tree is asserted if it fits, and otherwise leaves what is in front of its fault. -/
theorem run_assert (h : s.Inv) {p : Pattern} (hp : p.isGround = true) (truth : Option Truth) :
    if p.fits then ∃ id s', (assert p truth).run.run s = (.ok id, s')
    else ∃ e, (assert p truth).run.run s = (.error e, ((ensureList p.beforeFault).run.run s).2) := by
  rw [assert_of_isGround hp]
  split
  · next hfits =>
    obtain ⟨id, u, hrun, _⟩ := run_ensure_of_fits h truth hfits
    rw [run_bind, hrun]
    cases truth with
    | none => exact ⟨id, u, rfl⟩
    | some t =>
      show ∃ root v, (settle id t >>= fun _ => pure id).run.run u = (.ok root, v)
      rw [run_bind, run_settle]
      exact ⟨id, _, rfl⟩
  · next hfits =>
    obtain ⟨e, hrun⟩ := run_ensure_of_not_fits h truth (Bool.eq_false_iff.2 hfits)
    exact ⟨e, by rw [run_bind, hrun]⟩

/-- The truth value that a document gives to an assertion; one that is missing gives none. -/
inductive Given : Value → Option Truth → Prop
  | missing : Given .null none
  | truth {v : Value} {t : Truth} (h : Truth.ofValue v = .ok t) : Given v (some t)

/-- Whether a document is given as a truth value and is none. -/
def Refused (truth : Value) : Prop := truth ≠ .null ∧ ∀ t, Truth.ofValue truth ≠ .ok t

/-- Whether an assertion is refused before it looks at the store: its text cannot be read, its tree
has variables, or its truth value is none. -/
def Declined (src : Pattern.Source) (truth : Value) : Prop :=
  ∀ p, src.pattern = .ok p → p.isGround = false ∨ Refused truth

theorem run_assertValue_of_refused {p : Pattern} {truth : Value}
    (h : p.isGround = false ∨ Refused truth) :
    ∃ e, (assertValue p truth).run.run s = (.error e, s) := by
  unfold assertValue
  dsimp only
  cases hp : p.isGround with
  | false => exact ⟨_, rfl⟩
  | true =>
    obtain ⟨hnull, hnone⟩ := h.resolve_left (by rw [hp]; decide)
    simp only [Bool.not_true, Bool.false_eq_true, if_false]
    rw [run_lift_bind]
    cases ht : Truth.ofValue truth with
    | ok t => exact absurd ht (hnone t)
    | error e => exact ⟨_, rfl⟩

theorem exists_given {truth : Value} (h : ¬ Refused truth) : ∃ t, Given truth t := by
  by_cases hnull : truth = .null
  · exact ⟨none, hnull ▸ .missing⟩
  · cases hv : Truth.ofValue truth with
    | ok t => exact ⟨some t, .truth hv⟩
    | error e => exact absurd ⟨hnull, fun t h => nomatch hv.symm.trans h⟩ h

theorem run_assertValue_of_given {p : Pattern} {truth : Value} {t : Option Truth}
    (hp : p.isGround = true) (ht : Given truth t) :
    (assertValue p truth).run.run s = (assert p t).run.run s := by
  unfold assertValue
  dsimp only
  rw [hp]
  simp only [Bool.not_true, Bool.false_eq_true, if_false]
  cases ht with
  | missing => rfl
  | truth hv =>
    split
    · cases hv
    · rw [run_lift_bind, hv]
      rfl

/-- An assertion fails if it is refused or its tree does not fit, and not otherwise. -/
theorem run_assertFrom (h : s.Inv) (src : Pattern.Source) (truth : Value) :
    (Declined src truth ∧ ∃ e, (assertFrom src truth).run.run s = (.error e, s)) ∨
    (∃ p, src.pattern = .ok p ∧ ¬ Declined src truth ∧ p.fits = true ∧
      ∃ id s', (assertFrom src truth).run.run s = (.ok id, s')) ∨
    (∃ p, src.pattern = .ok p ∧ ¬ Declined src truth ∧ p.fits = false ∧
      ∃ e, (assertFrom src truth).run.run s =
        (.error e, ((ensureList p.beforeFault).run.run s).2)) := by
  unfold assertFrom
  rw [run_lift_bind]
  cases hsrc : src.pattern with
  | error e => exact .inl ⟨fun p hp => (nomatch hsrc.symm.trans hp), e, rfl⟩
  | ok p =>
    dsimp only
    by_cases hdeclined : p.isGround = false ∨ Refused truth
    · refine .inl ⟨fun q hq => ?_, run_assertValue_of_refused hdeclined⟩
      obtain rfl := Except.ok.inj (hsrc.symm.trans hq)
      exact hdeclined
    · have hnot : ¬ Declined src truth := fun hd => hdeclined (hd p hsrc)
      obtain ⟨hground, ht⟩ := not_or.1 hdeclined
      have hground : p.isGround = true := by simpa using hground
      obtain ⟨t, ht⟩ := exists_given ht
      have hrun := run_assert h hground t
      rw [← run_assertValue_of_given hground ht] at hrun
      split at hrun
      · next hfits => exact .inr (.inl ⟨p, rfl, hnot, hfits, hrun⟩)
      · next hfits => exact .inr (.inr ⟨p, rfl, hnot, Bool.eq_false_iff.2 hfits, hrun⟩)

/-- A failed assertion changes the store exactly if something was missing in front of its fault,
and then by the trees that are complete there and nothing else. -/
theorem assertFrom_failed (h : Reachable s) {src : Pattern.Source} {truth : Value} {e : Error}
    (hrun : (assertFrom src truth).run.run s = (.error e, s')) :
    (s' = s ↔ Declined src truth ∨
      ∃ p, src.pattern = .ok p ∧ ∀ q ∈ p.beforeFault, s.existing q ≠ none) ∧
    (Declined src truth ∨ ∃ p, src.pattern = .ok p ∧ LeftOver s p s') := by
  rcases run_assertFrom h.inv src truth with ⟨hd, _, hfail⟩ | ⟨_, _, _, _, _, _, hok⟩ |
    ⟨p, hp, hd, hfits, _, hfail⟩
  · rw [hfail] at hrun
    cases hrun
    exact ⟨⟨fun _ => .inl hd, fun _ => rfl⟩, .inl hd⟩
  · rw [hok] at hrun
    cases hrun
  · rw [hfail] at hrun
    cases hrun
    have hleft := leftOver_of_not_fits h.inv hfits
    refine ⟨hleft.unchanged_iff.trans ⟨fun hall => .inr ⟨p, hp, hall⟩, ?_⟩, .inr ⟨p, hp, hleft⟩⟩
    rintro (hdeclined | ⟨q, hq, hall⟩)
    · exact absurd hdeclined hd
    · obtain rfl := Except.ok.inj (hp.symm.trans hq)
      exact hall

/-- A list of a thing and a node without a name, as a text. -/
def nameless : Pattern.Source := .text "(List (Concept \"a\") (Concept \"\"))"

theorem fails_nameless : ∃ e s', (assertFrom nameless .null).run.run empty = (.error e, s') ∧
    s'.size = 1 := by
  have hfail : ((assertFrom nameless .null).run.run empty).1.toOption = none := by decide +kernel
  have hsize : ((assertFrom nameless .null).run.run empty).2.size = 1 := by decide +kernel
  generalize (assertFrom nameless .null).run.run empty = r at hfail hsize
  obtain ⟨e | id, s'⟩ := r
  · exact ⟨e, s', rfl, hsize⟩
  · cases hfail

/-- The node in front of one without a name is left over. -/
theorem assertFrom_failed_nameless : Reachable empty ∧ ∃ e s',
    (assertFrom nameless .null).run.run empty = (.error e, s') ∧ s' ≠ empty ∧
      (Declined nameless .null ∨ ∃ p, nameless.pattern = .ok p ∧ LeftOver empty p s') := by
  obtain ⟨e, s', hrun, hsize⟩ := fails_nameless
  refine ⟨.empty, e, s', hrun, ?_, (assertFrom_failed .empty hrun).2⟩
  rintro rfl
  cases hsize

/-- Not every failed assertion leaves the store as it was. -/
theorem not_assertFrom_atomic : ¬ ∀ s, Reachable s → ∀ src truth e s',
    (assertFrom src truth).run.run s = (.error e, s') → s' = s := by
  intro hatomic
  obtain ⟨e, s', hrun, hsize⟩ := fails_nameless
  rw [hatomic empty .empty nameless .null e s' hrun] at hsize
  cases hsize

end Credence.Store
