import Credence.Proofs.Store.Solutions
import Mathlib.Algebra.Group.End
import Mathlib.Data.List.FinRange
import Mathlib.Data.List.Forall2
/-!
# Enumerating solutions

A solution of several patterns binds no more than it must for each pattern to denote
the atom of its place. The solutions that are listed are all there are, each once, in
the lexicographic order of their atoms, and a capped enumeration stops after the first
of them. So patterns in another order have the same solutions, with the atoms in that
order.
-/

namespace Credence

/-- What a solution tells: the atom bound to each variable, and the atom of each pattern. -/
def Solution.told (sol : Solution) : (String → Option AtomId) × List AtomId :=
  (sol.bindings.get?, sol.atomIds)

namespace Store

open Pattern

variable {s : Store} {ps : List Pattern} {b : Bindings} {sols : List Solution} {n : Nat}

/-! ## Order -/

/-- Solutions that are found from matches in ascending order. -/
theorem ascending_flatten {f : Match → Except Error (List Solution)} {ms : List Match}
    {found : List (List Solution)} (hms : (ms.map Match.atomId).Pairwise (· < ·))
    (hall : List.Forall₂ (fun m sols => f m = .ok sols) ms found)
    (hf : ∀ m ∈ ms, ∀ sols, f m = .ok sols → (sols.map Solution.atomIds).Pairwise (· < ·) ∧
      ∀ sol ∈ sols, ∃ ids, sol.atomIds = m.atomId :: ids) :
    (found.flatten.map Solution.atomIds).Pairwise (· < ·) := by
  induction hall with
  | nil => exact .nil
  | @cons m sols ms found hm hrest ih =>
    obtain ⟨hlt, hms⟩ := List.pairwise_cons.1 hms
    obtain ⟨hfm, hfms⟩ := List.forall_mem_cons.1 hf
    obtain ⟨hfirst, hhead⟩ := hfm sols hm
    rw [List.flatten_cons, List.map_append]
    refine List.pairwise_append.2 ⟨hfirst, ih hms hfms, ?_⟩
    intro _ hx _ hy
    obtain ⟨sol, hsol, rfl⟩ := List.mem_map.1 hx
    obtain ⟨later, hlater, rfl⟩ := List.mem_map.1 hy
    obtain ⟨sols', hsols', hmem⟩ := List.mem_flatten.1 hlater
    obtain ⟨m', hm', hok⟩ := exists_of_mem_forall₂ hrest hsols'
    obtain ⟨ids, hids⟩ := hhead sol hsol
    obtain ⟨ids', hids'⟩ := (hfms m' hm' sols' hok).2 later hmem
    rw [hids, hids']
    exact List.cons_lt_cons_iff.2 (.inl (hlt _ (List.mem_map_of_mem hm')))

/-- Solutions come in the lexicographic order of their atoms, each once. -/
theorem ascending_solutions (h : s.Inv) (hb : s.Holds b) (hrun : s.solutions ps b = .ok sols) :
    (sols.map Solution.atomIds).Pairwise (· < ·) := by
  induction ps generalizing b sols with
  | nil =>
    cases hrun
    exact List.pairwise_singleton _ _
  | cons p ps ih =>
    unfold solutions at hrun
    rw [matchesFrom_eq_scan h p hb] at hrun
    obtain ⟨found, hfound, rfl⟩ := map_eq_ok (f := List.flatten) hrun
    have hall := forall₂_of_mapM hfound
    refine ascending_flatten (ascending_scan h p b) hall fun m hm sols hsols => ?_
    obtain ⟨hid, hmatch⟩ := mem_scan.1 hm
    obtain ⟨rest, hrest, rfl⟩ := map_eq_ok hsols
    have hpw := ih (hb.of_isMatch h hid (isMatch_of_matchAtom hmatch)) hrest
    constructor
    · rw [List.map_map]
      rw [List.pairwise_map] at hpw ⊢
      exact hpw.imp fun hlt => List.cons_lt_cons_iff.2 (.inr ⟨rfl, hlt⟩)
    · intro sol hsol
      obtain ⟨later, _, rfl⟩ := List.mem_map.1 hsol
      exact ⟨_, rfl⟩

theorem nodup_of_ascending {idss : List (List AtomId)} (h : idss.Pairwise (· < ·)) :
    idss.Nodup := by
  refine h.imp fun {ids ids'} hlt heq => ?_
  rw [heq] at hlt
  exact List.lt_irrefl ids' hlt

theorem eq_of_atomIds (h : s.Inv) (hb : s.Holds b) (hrun : s.solutions ps b = .ok sols)
    {sol sol' : Solution} (hsol : sol ∈ sols) (hsol' : sol' ∈ sols)
    (heq : sol.atomIds = sol'.atomIds) : sol = sol' :=
  List.inj_on_of_nodup_map (nodup_of_ascending (ascending_solutions h hb hrun)) hsol hsol' heq

/-! ## Least solutions -/

/-- What a solution is: stored atoms that the patterns denote under the bindings, where whatever
extends the given bindings and has the patterns denote these atoms extends the bindings as well. -/
structure Least (s : Store) (ps : List Pattern) (b : Bindings) (sol : Solution) : Prop where
  extension : b.Extends sol.bindings
  denotes : s.DenoteEach sol.bindings ps sol.atomIds
  stored : ∀ id ∈ sol.atomIds, s.contains id = true
  least : ∀ b₁ : Bindings, b.Extends b₁ → s.DenoteEach b₁ ps sol.atomIds → sol.bindings.Extends b₁

/-- Two extensions of each other bind the same atoms. -/
theorem get?_eq_of_extends {b b' : Bindings} (h : b.Extends b') (h' : b'.Extends b) :
    b.get? = b'.get? := by
  funext v
  cases hv : b.get? v with
  | some id => exact (h v id hv).symm
  | none =>
    cases hv' : b'.get? v with
    | none => rfl
    | some id =>
      rw [h' v id hv'] at hv
      cases hv

theorem least_of_mem_solutions (h : s.Inv) (hb : s.Holds b) (hrun : s.solutions ps b = .ok sols)
    {sol : Solution} (hsol : sol ∈ sols) : s.Least ps b sol := by
  obtain ⟨hext, _, hdenotes, hstored⟩ := solved_of_solutions h hb hrun hsol
  refine ⟨hext, hdenotes, fun id hid => contains_iff.2 (hstored id hid), fun b₁ he hd => ?_⟩
  obtain ⟨sol', hsol', hids, hext'⟩ := exists_mem_solutions h hb he hstored hd hrun
  rwa [eq_of_atomIds h hb hrun hsol' hsol hids] at hext'

/-- Every solution is listed, up to the order of its bindings. -/
theorem Least.exists_mem (h : s.Inv) (hb : s.Holds b) (hrun : s.solutions ps b = .ok sols)
    {sol : Solution} (hsol : s.Least ps b sol) :
    ∃ sol' ∈ sols, sol'.atomIds = sol.atomIds ∧ sol'.bindings.get? = sol.bindings.get? := by
  have hstored : ∀ id ∈ sol.atomIds, id ∈ s.ids := fun id hid => contains_iff.1 (hsol.stored id hid)
  obtain ⟨sol', hmem, hids, hext⟩ :=
    exists_mem_solutions h hb hsol.extension hstored hsol.denotes hrun
  have hsol' := least_of_mem_solutions h hb hrun hmem
  have hback := hsol.least sol'.bindings hsol'.extension (hids ▸ hsol'.denotes)
  exact ⟨sol', hmem, hids, get?_eq_of_extends hext hback⟩

/-! ## A capped enumeration -/

end Store

namespace Enumeration

/-- Takes solutions one after another as long as there is room. -/
def takeAll (e : Enumeration) (sols : List Solution) : Enumeration :=
  sols.foldl (fun e sol => if e.isFull then e else e.take sol) e

theorem takeAll_of_isFull {e : Enumeration} (h : e.isFull = true) (sols : List Solution) :
    e.takeAll sols = e := by
  induction sols with
  | nil => rfl
  | cons sol sols ih =>
    unfold takeAll
    rw [List.foldl_cons, if_pos h]
    exact ih

theorem takeAll_append (e : Enumeration) (sols later : List Solution) :
    e.takeAll (sols ++ later) = (e.takeAll sols).takeAll later :=
  List.foldl_append ..

/-- What is found in the end are the first solutions, the last of them first. -/
theorem found_takeAll (e : Enumeration) (sols : List Solution) :
    (e.takeAll sols).found = (Store.firstOf e.room sols).reverse ++ e.found := by
  induction sols generalizing e with
  | nil =>
    obtain ⟨found, room⟩ := e
    cases room <;> simp [takeAll, Store.firstOf]
  | cons sol sols ih =>
    obtain ⟨found, room⟩ := e
    cases room with
    | none =>
      show (takeAll ⟨sol :: found, none⟩ sols).found = _
      rw [ih]
      simp [Store.firstOf]
    | some k =>
      cases k with
      | zero =>
        rw [takeAll_of_isFull rfl]
        rfl
      | succ k =>
        show (takeAll ⟨sol :: found, some k⟩ sols).found = _
        rw [ih]
        simp [Store.firstOf]

end Enumeration

namespace Reading

open Store

variable {s : Store} {ps : List Pattern} {b : Bindings} {sols : List Solution}

/-- The solutions with the atoms of patterns before theirs. -/
def after (used : List AtomId) (sols : List Solution) : List Solution :=
  sols.map fun sol => { sol with atomIds := used.reverse ++ sol.atomIds }

theorem after_cons (id : AtomId) (used : List AtomId) (sols : List Solution) :
    after (id :: used) sols =
      after used (sols.map fun sol => { sol with atomIds := id :: sol.atomIds }) := by
  unfold after
  rw [List.map_map]
  refine List.map_congr_left fun sol _ => ?_
  simp

theorem after_append (used : List AtomId) (sols later : List Solution) :
    after used (sols ++ later) = after used sols ++ after used later := List.map_append ..

/-- An enumeration over matches takes what each of them leads to. -/
theorem run_foldlM {f : Match → Except Error (List Solution)} {used : List AtomId}
    {step : Enumeration → Match → Reading Enumeration} {ms : List Match}
    {found : List (List Solution)} (hall : List.Forall₂ (fun m sols => f m = .ok sols) ms found)
    (hstep : ∀ m ∈ ms, ∀ sols, f m = .ok sols → ∀ e n, ∃ n',
      StateT.run (ExceptT.run (step e m)) n = (.ok (e.takeAll (after used sols)), n'))
    (e : Enumeration) (n : Nat) : ∃ n', StateT.run (ExceptT.run (ms.foldlM step e)) n =
      (.ok (e.takeAll (after used found.flatten)), n') := by
  induction hall generalizing e n with
  | nil => exact ⟨n, rfl⟩
  | @cons m sols ms found hm _ ih =>
    obtain ⟨hstep, hsteps⟩ := List.forall_mem_cons.1 hstep
    obtain ⟨n', hfirst⟩ := hstep sols hm e n
    obtain ⟨n'', hlater⟩ := ih hsteps (e.takeAll (after used sols)) n'
    refine ⟨n'', ?_⟩
    rw [List.foldlM_cons, run_question_bind, hfirst]
    dsimp only
    rw [hlater, ← Enumeration.takeAll_append, ← after_append, List.flatten_cons]

/-- An enumeration that has room takes the solutions of the patterns as long as it has. -/
theorem run_enumerate (h : s.Inv) (hb : s.Holds b) (hrun : s.solutions ps b = .ok sols)
    (used : List AtomId) {e : Enumeration} (he : e.isFull = false) (n : Nat) :
    ∃ n', StateT.run (ExceptT.run (enumerate s ps b used e)) n =
      (.ok (e.takeAll (after used sols)), n') := by
  induction ps generalizing b used e sols n with
  | nil =>
    cases hrun
    refine ⟨n, ?_⟩
    unfold after Enumeration.takeAll
    rw [List.map_singleton, List.foldl_cons, List.foldl_nil, he, List.append_nil]
    rfl
  | cons p ps ih =>
    have hscan := matchesFrom_eq_scan h p hb
    unfold Store.solutions at hrun
    rw [hscan] at hrun
    obtain ⟨found, hfound, rfl⟩ := map_eq_ok (f := List.flatten) hrun
    unfold enumerate
    rw [run_question_bind, run_matchesFrom, hscan]
    refine run_foldlM (forall₂_of_mapM hfound) (fun m hm sols hsols e n => ?_) e _
    obtain ⟨rest, hrest, rfl⟩ := map_eq_ok hsols
    obtain ⟨hid, hmatch⟩ := mem_scan.1 hm
    rw [← after_cons]
    by_cases he : e.isFull = true
    · rw [if_pos he, e.takeAll_of_isFull he]
      exact ⟨n, rfl⟩
    · rw [if_neg he]
      have hbm := hb.of_isMatch h hid (isMatch_of_matchAtom hmatch)
      exact ih hbm hrest (m.atomId :: used) (by simpa using he) n

/-- A question about several patterns is answered with their first solutions. -/
theorem answer_solutions (h : s.Inv) (hb : s.Holds b) (hrun : s.solutions ps b = .ok sols)
    (limit : Option Nat) (n : Nat) :
    (StateT.run (ExceptT.run (Reading.solutions s ps limit b)) n).1 = .ok (firstOf limit sols) := by
  have hwhole : after [] sols = sols := by
    unfold after
    exact (List.map_congr_left fun _ _ => rfl).trans (List.map_id sols)
  by_cases hzero : limit = some 0
  · rw [hzero]
    rfl
  · have hroom : Enumeration.isFull ⟨[], limit⟩ = false := by simpa [Enumeration.isFull] using hzero
    obtain ⟨n', hall⟩ := run_enumerate h hb hrun [] hroom n
    have hanswer : Reading.solutions s ps limit b = enumerate s ps b [] ⟨[], limit⟩ >>= fun e =>
        pure e.found.reverse := by
      unfold Reading.solutions
      split
      · exact absurd rfl hzero
      · rfl
    rw [hanswer, run_question_bind, hall, hwhole]
    show (.ok (Enumeration.takeAll ⟨[], limit⟩ sols).found.reverse : Except Error _) = _
    rw [Enumeration.found_takeAll, List.append_nil, List.reverse_reverse]

end Reading

namespace Store

open Reading

variable {s : Store} {ps : List Pattern} {b : Bindings} {sols : List Solution} {n : Nat}

/-! ## Other orders -/

/-- The items of a list at other places: each place has the item of the place that it is sent to. -/
def arrange {α : Type} (σ : Equiv.Perm (Fin n)) (xs : List α) : List α :=
  (List.finRange n).filterMap fun i => xs[(σ i).val]?

theorem arrange_ofFn {α : Type} (σ : Equiv.Perm (Fin n)) (f : Fin n → α) :
    arrange σ (List.ofFn f) = List.ofFn (f ∘ σ) := by
  have hitem : ∀ i : Fin n, (List.ofFn f)[(σ i).val]? = some (f (σ i)) := by simp
  unfold arrange
  simp only [hitem]
  rw [List.ofFn_eq_map]
  exact congrFun List.filterMap_eq_map _

theorem exists_ofFn {α : Type} {xs : List α} (h : xs.length = n) :
    ∃ f : Fin n → α, List.ofFn f = xs := by
  subst h
  exact ⟨xs.get, List.ofFn_get xs⟩

/-- Items that are sent to other places come back. -/
theorem arrange_inv {α : Type} (σ : Equiv.Perm (Fin n)) {xs : List α} (h : xs.length = n) :
    arrange σ⁻¹ (arrange σ xs) = xs := by
  obtain ⟨f, rfl⟩ := exists_ofFn h
  rw [arrange_ofFn, arrange_ofFn]
  congr 1
  funext i
  simp

theorem length_arrange {α : Type} (σ : Equiv.Perm (Fin n)) {xs : List α} (h : xs.length = n) :
    (arrange σ xs).length = n := by
  obtain ⟨f, rfl⟩ := exists_ofFn h
  rw [arrange_ofFn, List.length_ofFn]

theorem mem_arrange {α : Type} (σ : Equiv.Perm (Fin n)) {xs : List α} (h : xs.length = n) {x : α} :
    x ∈ arrange σ xs ↔ x ∈ xs := by
  obtain ⟨f, rfl⟩ := exists_ofFn h
  rw [arrange_ofFn, List.mem_ofFn, List.mem_ofFn]
  exact σ.exists_congr_right (q := fun i => f i = x)

theorem denoteEach_ofFn {p : Fin n → Pattern} {ids : Fin n → AtomId} :
    s.DenoteEach b (List.ofFn p) (List.ofFn ids) ↔ ∀ i, s.Denotes b (p i) (ids i) := by
  induction n with
  | zero => simp [DenoteEach]
  | succ n ih => rw [List.ofFn_succ, List.ofFn_succ, DenoteEach, ih, Fin.forall_fin_succ]

/-- Whether patterns denote atoms place by place does not depend on the order of the places. -/
theorem denoteEach_arrange (σ : Equiv.Perm (Fin n)) {ids : List AtomId} (hps : ps.length = n)
    (hids : ids.length = n) :
    s.DenoteEach b (arrange σ ps) (arrange σ ids) ↔ s.DenoteEach b ps ids := by
  obtain ⟨p, rfl⟩ := exists_ofFn hps
  obtain ⟨f, rfl⟩ := exists_ofFn hids
  rw [arrange_ofFn, arrange_ofFn, denoteEach_ofFn, denoteEach_ofFn]
  exact σ.forall_congr_right (q := fun i => s.Denotes b (p i) (f i))

theorem least_arrange (σ : Equiv.Perm (Fin n)) {bindings : Bindings} {ids : List AtomId}
    (hps : ps.length = n) (hids : ids.length = n) :
    s.Least (arrange σ ps) b ⟨bindings, arrange σ ids⟩ ↔ s.Least ps b ⟨bindings, ids⟩ := by
  have heach := fun b₁ : Bindings => denoteEach_arrange (s := s) (b := b₁) σ hps hids
  constructor
  · rintro ⟨hext, hdenotes, hstored, hleast⟩
    exact ⟨hext, (heach _).1 hdenotes, fun id hid => hstored id ((mem_arrange σ hids).2 hid),
      fun b₁ he hd => hleast b₁ he ((heach b₁).2 hd)⟩
  · rintro ⟨hext, hdenotes, hstored, hleast⟩
    exact ⟨hext, (heach _).2 hdenotes, fun id hid => hstored id ((mem_arrange σ hids).1 hid),
      fun b₁ he hd => hleast b₁ he ((heach b₁).1 hd)⟩

theorem Least.length (h : s.Least ps b sol) : sol.atomIds.length = ps.length :=
  length_of_denoteEach h.denotes

/-- What is listed for patterns: all solutions, each once, in the lexicographic order of their
atoms. -/
structure Enumerates (s : Store) (ps : List Pattern) (b : Bindings) (sols : List Solution) :
    Prop where
  ascending : (sols.map Solution.atomIds).Pairwise (· < ·)
  exact : ∀ sol ∈ sols, s.Least ps b sol
  complete : ∀ sol, s.Least ps b sol → ∃ sol' ∈ sols, sol'.told = sol.told

theorem enumerates_solutions (h : s.Inv) (hb : s.Holds b) (hrun : s.solutions ps b = .ok sols) :
    s.Enumerates ps b sols where
  ascending := ascending_solutions h hb hrun
  exact _ hsol := least_of_mem_solutions h hb hrun hsol
  complete _ hsol := by
    obtain ⟨sol', hmem, hids, hget⟩ := hsol.exists_mem h hb hrun
    exact ⟨sol', hmem, Prod.ext hget hids⟩

theorem Enumerates.nodup_told (h : s.Enumerates ps b sols) : (sols.map Solution.told).Nodup := by
  refine List.Nodup.of_map Prod.snd ?_
  rw [List.map_map]
  exact nodup_of_ascending h.ascending

/-- Patterns in another order have the same solutions, with the atoms in that order. -/
theorem Enumerates.perm (σ : Equiv.Perm (Fin ps.length)) (h : s.Enumerates ps b sols)
    {sols' : List Solution} (h' : s.Enumerates (arrange σ ps) b sols') :
    (sols'.map Solution.told).Perm
      (sols.map fun sol => (sol.bindings.get?, arrange σ sol.atomIds)) := by
  have hback : (sols.map fun sol => (sol.bindings.get?, arrange σ sol.atomIds)).map
      (fun x => (x.1, arrange σ⁻¹ x.2)) = sols.map Solution.told := by
    rw [List.map_map]
    refine List.map_congr_left fun sol hsol => ?_
    exact Prod.ext rfl (arrange_inv σ (h.exact sol hsol).length)
  have hnodup : (sols.map fun sol => (sol.bindings.get?, arrange σ sol.atomIds)).Nodup :=
    List.Nodup.of_map (fun x => (x.1, arrange σ⁻¹ x.2)) (hback ▸ h.nodup_told)
  refine (List.perm_ext_iff_of_nodup h'.nodup_told hnodup).2 fun x => ?_
  rw [List.mem_map, List.mem_map]
  constructor
  · rintro ⟨sol', hsol', rfl⟩
    have hleast := h'.exact sol' hsol'
    have hlength : sol'.atomIds.length = ps.length := hleast.length.trans (length_arrange σ rfl)
    have hids : arrange σ (arrange σ⁻¹ sol'.atomIds) = sol'.atomIds := by
      have hinv := arrange_inv σ⁻¹ hlength
      rwa [inv_inv] at hinv
    have hsol : s.Least ps b ⟨sol'.bindings, arrange σ⁻¹ sol'.atomIds⟩ := by
      refine (least_arrange σ rfl (length_arrange _ hlength)).1 ?_
      rw [hids]
      exact hleast
    obtain ⟨sol, hmem, htold⟩ := h.complete _ hsol
    obtain ⟨hget, heq⟩ := Prod.mk.inj htold
    refine ⟨sol, hmem, Prod.ext hget ?_⟩
    exact (congrArg (arrange σ) heq).trans hids
  · rintro ⟨sol, hsol, rfl⟩
    have hleast := h.exact sol hsol
    obtain ⟨sol', hsol', htold⟩ := h'.complete _ ((least_arrange σ rfl hleast.length).2 hleast)
    exact ⟨sol', hsol', htold⟩

/-- In every reachable store the solutions of patterns that extend bindings of stored atoms are
listed completely and in order, a question with a limit gives the first of them, and whatever order
the patterns are put in the solutions are the same. -/
theorem solutions_enumerate {s : Store} (h : s.Reachable) (ps : List Pattern) {b : Bindings}
    (hb : s.Holds b) :
    ∃ sols, s.solutions ps b = .ok sols ∧ s.Enumerates ps b sols ∧
      (∀ limit n, (StateT.run (ExceptT.run (Reading.solutions s ps limit b)) n).1 =
        .ok (firstOf limit sols)) ∧
      ∀ σ : Equiv.Perm (Fin ps.length), ∃ sols', s.solutions (arrange σ ps) b = .ok sols' ∧
        (sols'.map Solution.told).Perm
          (sols.map fun sol => (sol.bindings.get?, arrange σ sol.atomIds)) := by
  have hi := h.inv
  obtain ⟨sols, hrun⟩ := solutions_ok hi ps hb
  have hall := enumerates_solutions hi hb hrun
  refine ⟨sols, hrun, hall, answer_solutions hi hb hrun, fun σ => ?_⟩
  obtain ⟨sols', hrun'⟩ := solutions_ok hi (arrange σ ps) hb
  exact ⟨sols', hrun', hall.perm σ (enumerates_solutions hi hb hrun')⟩

/-- A chain of two links, asked for from either end. -/
theorem solutions_enumerate_chain :
    let cat : Pattern := .node (.node .concept) "cat"
    let mammal : Pattern := .node (.node .concept) "mammal"
    let animal : Pattern := .node (.node .concept) "animal"
    let under : Pattern → Pattern → Pattern := fun p q => .link (.link .inheritance) [p, q]
    let chain : Pattern := .link (.link .list) [under cat mammal, under mammal animal]
    let s := ((assert chain none).run.run empty).2
    let ps := [under (.var "$A") (.var "$B"), under (.var "$B") (.var "$C")]
    let b : Bindings := ⟨[("$B", 2)]⟩
    s.Reachable ∧ s.Holds b ∧
      s.solutions ps b = .ok [⟨⟨[("$B", 2), ("$A", 1), ("$C", 4)]⟩, [3, 5]⟩] ∧
      s.solutions ps.reverse b = .ok [⟨⟨[("$B", 2), ("$C", 4), ("$A", 1)]⟩, [5, 3]⟩] ∧
      ∃ sols, s.solutions ps b = .ok sols ∧ s.Enumerates ps b sols := by
  intro cat mammal animal under chain s ps b
  have hs : s.Reachable := Reachable.single _
  have hb : s.Holds b := by
    intro v id hv
    have hid : id = 2 := by
      unfold b Table.get? Table.find at hv
      split at hv
      · exact (Option.some.inj hv).symm
      · cases hv
    rw [hid]
    decide +kernel
  obtain ⟨sols, hrun, hall, -, -⟩ := solutions_enumerate hs ps hb
  exact ⟨hs, hb, ok_of_toOption (by decide +kernel), ok_of_toOption (by decide +kernel), sols,
    hrun, hall⟩

end Store

end Credence
