import Credence.Proofs.Inference.Backward.Report
import Credence.Proofs.Store.Counterpart
/-!
# The most confident fact

The facts of a goal are sorted by confidence and keep their order where they are
equally confident, so the first one tried is the oldest of the most confident, as far
as the cap on results lets the search see them. If it is good enough, the search stops
there and reports it.
-/

namespace Credence

open Number Pattern Substitution

/-! ## The head of a sorted list -/

section Leader

variable {α : Type} {le : α → α → Bool}

/-- An element with lesser ones before it and no greater ones after it. -/
structure Leader (le : α → α → Bool) (l before : List α) (a : α) (after : List α) : Prop where
  split : l = before ++ a :: after
  before : ∀ b ∈ before, le b a = false
  after : ∀ b ∈ after, le a b = true

variable (trans : ∀ a b c, le a b = true → le b c = true → le a c = true)
  (total : ∀ a b, (le a b || le b a) = true)
include trans total

theorem exists_leader {l : List α} (hl : l ≠ []) : ∃ before a after, Leader le l before a after := by
  induction l with
  | nil => exact absurd rfl hl
  | cons x xs ih =>
    by_cases hxs : xs = []
    · subst hxs
      exact ⟨[], x, [], rfl, nofun, nofun⟩
    · obtain ⟨before, a, after, rfl, hbefore, hafter⟩ := ih hxs
      by_cases hx : le x a = true
      · refine ⟨[], x, before ++ a :: after, rfl, nofun, fun b hb => ?_⟩
        rcases List.mem_append.1 hb with hb | hb
        · have hab : le a b = true := by simpa [hbefore b hb] using total a b
          exact trans x a b hx hab
        · rcases List.mem_cons.1 hb with rfl | hb
          · exact hx
          · exact trans x a b hx (hafter b hb)
      · refine ⟨x :: before, a, after, rfl, fun b hb => ?_, hafter⟩
        rcases List.mem_cons.1 hb with rfl | hb
        · exact Bool.eq_false_iff.2 hx
        · exact hbefore b hb

/-- Sorting puts the leader of a list first. -/
theorem Leader.head?_mergeSort {l before after : List α} {a : α} (h : Leader le l before a after) :
    (l.mergeSort le).head? = some a := by
  obtain ⟨rfl, hbefore, hafter⟩ := h
  induction before with
  | nil =>
    obtain ⟨l₁, l₂, hsort, hrest, hfront⟩ := List.mergeSort_cons trans total a after
    rw [List.nil_append, hsort]
    cases l₁ with
    | nil => rfl
    | cons b bs =>
      have hb : b ∈ after := List.mem_mergeSort.1 (hrest ▸ List.mem_append_left _ (List.mem_cons_self ..))
      have hnot := hfront b (List.mem_cons_self ..)
      rw [hafter b hb] at hnot
      cases hnot
  | cons b bs ih =>
    obtain ⟨hb, hbs⟩ := List.forall_mem_cons.1 hbefore
    obtain ⟨l₁, l₂, hsort, hrest, _⟩ := List.mergeSort_cons trans total b (bs ++ a :: after)
    have hhead := ih hbs
    rw [hrest] at hhead
    rw [List.cons_append, hsort]
    cases l₁ with
    | cons c cs => exact hhead
    | nil =>
      -- The lesser element cannot come first, since the sorted list has the leader behind it.
      have hsorted := List.pairwise_mergeSort trans total (b :: (bs ++ a :: after))
      rw [hsort, List.nil_append, List.pairwise_cons] at hsorted
      have hba := hsorted.1 a (List.mem_of_mem_head? hhead)
      rw [hb] at hba
      cases hba

end Leader

namespace Leader

/-- The leader of a list leads every start of the list that holds it. -/
theorem take {l before after : List α} {a : α} (h : Leader le l before a after) {n : Nat}
    (hn : before.length < n) :
    Leader le (l.take n) before a (after.take (n - before.length - 1)) := by
  obtain ⟨rfl, hbefore, hafter⟩ := h
  obtain ⟨k, rfl⟩ := Nat.exists_eq_add_of_lt hn
  refine ⟨?_, hbefore, fun b hb => hafter b (List.mem_of_mem_take hb)⟩
  rw [List.take_append, List.take_of_length_le (Nat.le_of_lt hn)]
  have hk : before.length + k + 1 - before.length = k + 1 := by omega
  rw [hk, List.take_succ_cons]
  rfl

end Leader

/-! ## All bindings of a goal -/

/-- If all names are bound, their values are resolved in order. -/
theorem Substitution.resolve_of_bound {θ : Substitution} (hθ : θ.Acyclic) {names : List String}
    (hn : names.Nodup) (hb : ∀ v ∈ names, θ.get? v ≠ none) :
    θ.resolve names = ⟨names.map fun v => (v, θ.value v)⟩ := by
  have hpairs : (names.filterMap fun v => (θ.get? v).map fun p => (v, θ.apply p)) =
      names.map fun v => (v, θ.value v) := by
    rw [← List.filterMap_eq_map]
    refine List.filterMap_congr fun v hv => ?_
    obtain ⟨p, hp⟩ := Option.ne_none_iff_exists'.1 (hb v hv)
    show (θ.get? v).map _ = some (v, θ.value v)
    rw [hp, Option.map_some, hθ.solves_value v p hp, apply_eq_subst]
  unfold resolve Table.ofList
  rw [hpairs, List.foldl_map]
  have hkeys : (Table.keys (α := Pattern) .empty ++ names.map id).Nodup := by
    rw [List.map_id]
    exact hn
  exact congrArg Table.mk (Table.entries_foldl_insert .empty hkeys)

namespace Backward

open Store

variable {pb : Problem}

/-! ## The first fact that is tried -/

/-- Whether the atom of a match is at least as confident as that of another. -/
def Problem.surer (pb : Problem) (m m' : Match) : Bool :=
  decide (pb.confidence m'.atomId ≤ pb.confidence m.atomId)

theorem inUnit_confidence (h : pb.store.Inv) (id : AtomId) : inUnit (pb.confidence id) = true := by
  unfold Problem.confidence
  split
  · split
    · next a ha => exact (h.formed.valid a ((get?_some_iff h.formed.ascending).1 ha).1).confidence
    · exact inUnit_zero
  · exact inUnit_one

theorem surer_trans (h : pb.store.Inv) (m n k : Match) (hmn : pb.surer m n = true)
    (hnk : pb.surer n k = true) : pb.surer m k = true :=
  decide_eq_true (le_of_le_of_inUnit (inUnit_confidence h _) (inUnit_confidence h _)
    (of_decide_eq_true hnk) (of_decide_eq_true hmn))

theorem surer_total (h : pb.store.Inv) (m n : Match) : (pb.surer m n || pb.surer n m) = true := by
  rcases le_total_of_inUnit (inUnit_confidence h m.atomId) (inUnit_confidence h n.atomId) with
    hle | hle
  · exact Bool.or_eq_true_iff.2 (.inr (decide_eq_true hle))
  · exact Bool.or_eq_true_iff.2 (.inl (decide_eq_true hle))

/-- The leader of the matches is tried first if it is among those that are tried. -/
theorem facts_of_leader (h : pb.store.Inv) {goal : Pattern} {before after : List Match} {m : Match}
    (hm : Leader pb.surer (pb.store.scan goal .empty) before m after)
    (hcap : before.length < pb.params.maxResults) :
    ∃ rest, pb.facts goal = .ok (m :: rest) := by
  have hscan : pb.store.matchesOf goal = .ok (pb.store.scan goal .empty) :=
    matchesFrom_eq_scan h goal (holds_empty _)
  have hhead := (hm.take hcap).head?_mergeSort (surer_trans h) (surer_total h)
  obtain ⟨rest, hrest⟩ := List.head?_eq_some_iff.1 hhead
  refine ⟨rest, ?_⟩
  unfold Problem.facts
  rw [hscan]
  exact congrArg Except.ok hrest

/-! ## Stopping at the first fact -/

/-- If the first fact is good enough, nothing else is tried. -/
theorem report_of_fact {goal : Pattern} {s : State} {m : Match} {rest : List Match}
    {θ : Substitution} (hlive : (s.poll pb.deadline).expired = false)
    (hfacts : pb.facts goal = .ok (m :: rest)) (hθ : extend pb.store .empty m.bindings = .ok θ)
    (hgood : pb.params.threshold ≤ pb.confidence m.atomId) :
    ∃ r, (pb.report goal s).1 = .ok r ∧ r.goalProven = true ∧
      r.confidence = pb.confidence m.atomId ∧ r.bindings = θ.resolve goal.vars := by
  have hstep : Drawn.step pb.params ⟨none, 0, false⟩
      (θ, .node (θ.apply goal) (pb.confidence m.atomId) 0 .fact []) =
      (⟨some (θ, .node (θ.apply goal) (pb.confidence m.atomId) 0 .fact [],
        pb.confidence m.atomId), 1, false⟩, true) := by
    unfold Drawn.step
    exact if_pos hgood
  unfold Problem.report Problem.prove
  simp only [Search.fold, hlive, apply_empty, hfacts, Search.ofEach, Problem.byFact, hθ, Search.append,
    hstep, Bool.false_eq_true, if_false]
  exact ⟨_, rfl, decide_eq_true hgood, rfl, rfl⟩

/-! ## The atom that wins -/

/-- Whether an atom is the oldest of the most confident ones that match a goal. -/
structure Wins (s : Store) (goal : Pattern) (a : Atom) : Prop where
  mem : a ∈ s.atoms
  denoted : s.Denoted goal a.id
  highest : ∀ c ∈ s.atoms, s.Denoted goal c.id → c.truth.confidence ≤ a.truth.confidence
  oldest : ∀ c ∈ s.atoms, s.Denoted goal c.id → c.id < a.id →
    c.truth.confidence < a.truth.confidence

theorem confidence_eq (h : pb.store.Inv) (hu : pb.params.useUncertainty = true) {a : Atom}
    (ha : a ∈ pb.store.atoms) : pb.confidence a.id = a.truth.confidence := by
  unfold Problem.confidence
  rw [if_pos hu, get?_eq_some h ha]

/-- The atom of the leading match wins. -/
theorem wins_of_leader (h : pb.store.Inv) (hu : pb.params.useUncertainty = true) {goal : Pattern}
    {before after : List Match} {m : Match}
    (hm : Leader pb.surer (pb.store.scan goal .empty) before m after) {a : Atom}
    (ha : a ∈ pb.store.atoms) (hid : a.id = m.atomId) : Wins pb.store goal a := by
  have hmem : m ∈ pb.store.scan goal .empty := by
    rw [hm.split]
    exact List.mem_append_right _ (List.mem_cons_self ..)
  have hasc := ascending_scan h goal .empty
  rw [hm.split, List.map_append, List.map_cons, List.pairwise_append, List.pairwise_cons] at hasc
  obtain ⟨_, ⟨hbehind, _⟩, _⟩ := hasc
  have hother : ∀ c ∈ pb.store.atoms, pb.store.Denoted goal c.id →
      c.truth.confidence < a.truth.confidence ∨
        a.id ≤ c.id ∧ c.truth.confidence ≤ a.truth.confidence := by
    intro c hc hd
    obtain ⟨n, hn, hnid⟩ := exists_mem_scan hd
    rw [← confidence_eq h hu hc, ← confidence_eq h hu ha, ← hnid, hid]
    rw [hm.split] at hn
    rcases List.mem_append.1 hn with hn | hn
    · refine .inl ((lt_iff_not_le_of_inUnit (inUnit_confidence h _) (inUnit_confidence h _)).2 ?_)
      exact of_decide_eq_false (hm.before n hn)
    · rcases List.mem_cons.1 hn with rfl | hn
      · exact .inr ⟨Nat.le_refl _, le_refl_of_inUnit (inUnit_confidence h _)⟩
      · exact .inr ⟨Nat.le_of_lt (hbehind _ (List.mem_map_of_mem hn)),
          of_decide_eq_true (hm.after n hn)⟩
  refine ⟨ha, hid ▸ denoted_of_mem_scan hmem, fun c hc hd => ?_, fun c hc hd hlt => ?_⟩
  · rcases hother c hc hd with hlt | ⟨_, hle⟩
    · exact le_of_lt_of_inUnit (h.formed.valid c hc).confidence (h.formed.valid a ha).confidence hlt
    · exact hle
  · exact (hother c hc hd).resolve_right fun hle => Nat.not_le.2 hlt hle.1

/-- A match among the first ones has fewer matches before it than there are of these. -/
theorem length_before_lt (h : pb.store.Inv) {goal : Pattern} {before after : List Match} {m : Match}
    (hm : Leader pb.surer (pb.store.scan goal .empty) before m after) {n : Nat}
    (hin : m.atomId ∈ ((pb.store.scan goal .empty).take n).map Match.atomId) :
    before.length < n := by
  by_contra hle
  have hasc := ascending_scan h goal .empty
  rw [hm.split, List.map_append, List.map_cons, List.pairwise_append] at hasc
  rw [hm.split, List.take_append_of_le_length (Nat.not_lt.1 hle)] at hin
  obtain ⟨b, hb, hid⟩ := List.mem_map.1 hin
  have hlt := hasc.2.2 _ (List.mem_map_of_mem (List.mem_of_mem_take hb)) _ (List.mem_cons_self ..)
  exact absurd hid (Nat.ne_of_lt hlt)

/-- The bindings of a match, resolved, are the trees of its atoms in the order of the variables. -/
theorem entries_resolve {s : Store} (h : s.Inv) (hp : s.Plain) {goal : Pattern} {m : Match}
    (hm : m ∈ s.scan goal .empty) {θ : Substitution}
    (hext : Extension s m.bindings.entries .empty θ) :
    List.Forall₂ (fun v e => e.1 = v ∧ ∃ id, m.bindings.get? v = some id ∧ s.toPattern id = .ok e.2)
      goal.vars (θ.resolve goal.vars).entries := by
  obtain ⟨hid, hmatch⟩ := mem_scan.1 hm
  have hfound := isMatch_of_matchAtom hmatch
  have hvalues := ((hext.solves_iff _).1 hext.acyclic.solves_value).2
  have hbound : ∀ v ∈ goal.vars, ∃ id, m.bindings.get? v = some id ∧ id ∈ s.ids ∧
      θ.value v = s.treeOf id := by
    intro v hv
    obtain ⟨id, hget, hids⟩ := mem_ids_of_denotes h hid hfound.denotes (mem_vars.1 hv)
    exact ⟨id, hget, hids, hvalues (v, id) (Table.mem_of_find hget)⟩
  have hsome : ∀ v ∈ goal.vars, θ.get? v ≠ none := by
    intro v hv
    obtain ⟨id, _, hids, hvalue⟩ := hbound v hv
    exact ne_none_of_isGround_value (hvalue ▸ isGround_treeOf h hp hids)
  have hnodup : goal.vars.Nodup := nodup_distinct goal.occurrences
  rw [resolve_of_bound hext.acyclic hnodup hsome]
  refine List.forall₂_map_right_iff.2 (List.forall₂_same.2 fun v hv => ⟨rfl, ?_⟩)
  obtain ⟨id, hget, hids, hvalue⟩ := hbound v hv
  exact ⟨id, hget, hvalue ▸ toPattern_eq_treeOf h hp hids⟩

/-- In a reachable store without variable nodes there is a most confident match if there is any, and
the oldest one is proven first: if it is good enough and the search gets to see it, the report shows
its confidence and the trees of the atoms that it binds. -/
theorem chain_finds_best {store : Store} (hs : store.Reachable) (hp : store.Plain)
    (rules : RuleBase) (goal : Pattern) (params : Params) (hu : params.useUncertainty = true)
    (ht : params.timeout = none) (clock : Clock) (n : Nat) {c : Atom} (hc : c ∈ store.atoms)
    (hd : store.Denoted goal c.id) (hgood : params.threshold ≤ c.truth.confidence) :
    ∃ a, Wins store goal a ∧
      ((∃ ms, store.matchesOf goal = .ok ms ∧
        a.id ∈ (ms.take params.maxResults).map Match.atomId) →
      ∃ r n', StateT.run (ExceptT.run (chain store rules goal params clock)) n = (.ok r, n') ∧
        r.goalProven = true ∧ r.confidence = a.truth.confidence ∧
        ∃ b, store.IsMatch goal .empty b a.id ∧
          List.Forall₂ (fun v e => e.1 = v ∧ ∃ id, b.get? v = some id ∧ store.toPattern id = .ok e.2)
            goal.vars r.bindings.entries) := by
  let pb := Problem.mk store rules params ⟨params.timeout, clock⟩
  have h : pb.store.Inv := hs.inv
  have hmatches : store.matchesOf goal = .ok (store.scan goal .empty) :=
    matchesFrom_eq_scan h goal (holds_empty _)
  obtain ⟨k, hk, _⟩ := exists_mem_scan hd
  obtain ⟨before, m, after, hm⟩ :=
    exists_leader (surer_trans h) (surer_total h) (List.ne_nil_of_mem hk)
  have hmem : m ∈ store.scan goal .empty := by
    rw [show store.scan goal .empty = _ from hm.split]
    exact List.mem_append_right _ (List.mem_cons_self ..)
  obtain ⟨hid, hmatch⟩ := mem_scan.1 hmem
  obtain ⟨a, ha, haid⟩ := mem_ids.1 hid
  have hwins : Wins store goal a := wins_of_leader h hu hm ha haid
  refine ⟨a, hwins, ?_⟩
  rintro ⟨ms, hms, hseen⟩
  obtain rfl := Except.ok.inj (hmatches.symm.trans hms)
  rw [haid] at hseen
  obtain ⟨rest, hfacts⟩ := facts_of_leader h hm (length_before_lt h hm hseen)
  obtain ⟨θ, hθ, hext⟩ := extension_extend h hp hmem acyclic_empty fun _ _ => rfl
  have hconf : pb.confidence m.atomId = a.truth.confidence := haid ▸ confidence_eq h hu ha
  have hbest : pb.params.threshold ≤ pb.confidence m.atomId := by
    rw [hconf]
    exact le_of_le_of_inUnit (h.formed.valid c hc).confidence (h.formed.valid a ha).confidence
      hgood (hwins.highest c hc hd)
  have hlive : (State.start.poll pb.deadline).expired = false := by
    unfold State.poll Deadline.poll
    simp only [pb, ht]
  obtain ⟨r, hr, hproven, hconfidence, hbindings⟩ := report_of_fact hlive hfacts hθ hbest
  refine ⟨r, n + (pb.report goal .start).2.lookups, ?_, hproven, hconfidence.trans hconf,
    m.bindings, ?_, ?_⟩
  · exact (run_chain ..).trans (Prod.ext hr rfl)
  · exact haid ▸ isMatch_of_matchAtom hmatch
  · rw [hbindings]
    exact entries_resolve h hp hmem hext

/-! ## Facts of different confidence -/

namespace Rated

/-- A list of one thing. -/
def just (p : Pattern) : Pattern := .link (.link .list) [p]

/-- A thing. -/
def thing (name : String) : Pattern := .node (.node .concept) name

/-- A store with one more list, as confident as is said. -/
def listing (s : Store) (name : String) (confidence : Float) : Store :=
  ((Store.assert (just (thing name)) (some ⟨1.0, confidence⟩)).run.run s).2

/-- Two lists, the younger of them more confident. -/
def two : Store := listing (listing .empty "a" 0.75) "b" 0.95

/-- A third list, as confident as the second. -/
def three : Store := listing two "c" 0.95

/-- The question what there are lists of. -/
def goal : Pattern := just (.var "$X")

theorem reachable_listing {s : Store} (hs : s.Reachable) (name : String) {confidence : Float}
    (hc : inUnit confidence = true) : (listing s name confidence).Reachable := by
  refine hs.assert _ _ ?_
  rintro _ ⟨⟩
  exact ⟨inUnit_one, hc⟩

theorem reachable_two : two.Reachable :=
  reachable_listing (reachable_listing .empty "a" (by decide)) "b" (by decide)

theorem reachable_three : three.Reachable := reachable_listing reachable_two "c" (by decide)

theorem denoted_goal {s : Store} {id : AtomId} (ref : AtomId) (hid : id ∈ s.ids)
    (hm : s.matchAtom goal id .empty = some ⟨[("$X", ref)]⟩) : s.Denoted goal id :=
  ⟨hid, _, (isMatch_of_matchAtom hm).denotes⟩

/-- The older of the two most confident lists wins. -/
theorem id_of_wins {a : Atom} (h : Wins three goal a) :
    a.id = 4 ∧ (0.95 : Float) ≤ a.truth.confidence := by
  have hsure : ∀ x ∈ three.atoms, (0.95 : Float) ≤ x.truth.confidence →
      x.id = 4 ∨ x.id = 6 ∧ ¬ (0.95 : Float) < x.truth.confidence := by
    decide +kernel
  have hfour : ∃ x ∈ three.atoms, x.id = 4 ∧ x.truth.confidence = 0.95 :=
    ⟨_, List.mem_of_getElem? (i := 3) rfl, rfl, rfl⟩
  obtain ⟨x, hx, hid, hconf⟩ := hfour
  have hdenoted : three.Denoted goal x.id := by
    rw [hid]
    exact denoted_goal 3 (by decide +kernel) (by decide +kernel)
  have hle := h.highest x hx hdenoted
  rw [hconf] at hle
  rcases hsure a h.mem hle with heq | ⟨heq, hnot⟩
  · exact ⟨heq, hle⟩
  · have hlt := h.oldest x hx hdenoted (by rw [hid, heq]; decide)
    rw [hconf] at hlt
    exact absurd hlt hnot

theorem facts_two : (Problem.mk two ⟨[]⟩ { Params.default with maxResults := 1 } ⟨none, fun _ => 0⟩).facts
    goal = .ok [⟨⟨[("$X", 1)]⟩, 2⟩] :=
  congrArg Except.ok (List.mergeSort_singleton _)

end Rated

open Rated in
/-- Of two equally confident lists behind a less confident one the older is reported. -/
theorem chain_finds_best_three :
    three.Reachable ∧ three.Plain ∧ ∃ r n,
      StateT.run (ExceptT.run (chain three ⟨[]⟩ goal .default fun _ => 0)) 0 = (.ok r, n) ∧
        r.goalProven = true ∧ (0.95 : Float) ≤ r.confidence ∧
        r.bindings.entries = [("$X", thing "b")] := by
  have hplain : three.Plain := by
    unfold Store.Plain
    decide +kernel
  have hc : ∃ c ∈ three.atoms, c.id = 2 ∧ c.truth.confidence = 0.75 :=
    ⟨_, List.mem_of_getElem? (i := 1) rfl, rfl, rfl⟩
  obtain ⟨c, hc, hid, hconf⟩ := hc
  have hdenoted : three.Denoted goal c.id := by
    rw [hid]
    exact denoted_goal 1 (by decide +kernel) (by decide +kernel)
  obtain ⟨a, hwins, hreport⟩ := chain_finds_best reachable_three hplain ⟨[]⟩ goal .default
    rfl rfl (fun _ => 0) 0 hc hdenoted (by rw [hconf]; decide)
  obtain ⟨haid, hle⟩ := id_of_wins hwins
  have hseen : ∃ ms, three.matchesOf goal = .ok ms ∧
      a.id ∈ (ms.take Params.default.maxResults).map Match.atomId := by
    rw [haid]
    exact ⟨_, rfl, by decide +kernel⟩
  obtain ⟨r, n, hrun, hproven, hconfidence, b, hb, hentries⟩ := hreport hseen
  refine ⟨reachable_three, hplain, r, n, hrun, hproven, hconfidence ▸ hle, ?_⟩
  -- The match of the fourth atom binds the variable to the third.
  rw [haid] at hb
  obtain ⟨b', hmatch, hsame⟩ := matchAtom_of_isMatch hb
  have hfour : three.matchAtom goal 4 .empty = some ⟨[("$X", 3)]⟩ := by decide +kernel
  rw [hfour] at hmatch
  cases hmatch
  rw [show goal.vars = ["$X"] by decide] at hentries
  obtain ⟨⟨v, p⟩, es, ⟨rfl, id, hget, hread⟩, hrest, heq⟩ := List.forall₂_cons_left_iff.1 hentries
  rw [List.forall₂_nil_left_iff.1 hrest] at heq
  rw [hsame] at hget
  cases hget
  rw [show three.toPattern 3 = .ok (thing "b") from rfl] at hread
  cases hread
  exact heq

open Rated in
/-- A search that may use one result tries the less confident list only, and reports it. -/
theorem not_chain_finds_best :
    let params : Params := { Params.default with maxResults := 1 }
    two.Reachable ∧ two.Plain ∧ params.useUncertainty = true ∧ params.timeout = none ∧
      ∃ c ∈ two.atoms, two.Denoted goal c.id ∧ params.threshold ≤ c.truth.confidence ∧
        ∃ r n, StateT.run (ExceptT.run (chain two ⟨[]⟩ goal params fun _ => 0)) 0 = (.ok r, n) ∧
          r.confidence < c.truth.confidence := by
  intro params
  have hplain : two.Plain := by
    unfold Store.Plain
    decide +kernel
  have hc : ∃ c ∈ two.atoms, c.id = 4 ∧ c.truth.confidence = 0.95 :=
    ⟨_, List.mem_of_getElem? (i := 3) rfl, rfl, rfl⟩
  obtain ⟨c, hc, hid, hconf⟩ := hc
  have hdenoted : two.Denoted goal c.id := by
    rw [hid]
    exact denoted_goal 3 (by decide +kernel) (by decide +kernel)
  let pb := Problem.mk two ⟨[]⟩ params ⟨none, fun _ => 0⟩
  have hlive : (State.start.poll pb.deadline).expired = false := rfl
  have hfacts : pb.facts goal = .ok [⟨⟨[("$X", 1)]⟩, 2⟩] := facts_two
  have hextend : extend pb.store .empty ⟨[("$X", 1)]⟩ = .ok ⟨[("$X", thing "a")]⟩ := rfl
  have hfirst : pb.confidence 2 = 0.75 := rfl
  have hgood : pb.params.threshold ≤ pb.confidence 2 := by
    rw [hfirst]
    decide
  obtain ⟨r, hr, _, hconfidence, _⟩ := report_of_fact hlive hfacts hextend hgood
  refine ⟨reachable_two, hplain, rfl, rfl, c, hc, hdenoted, by rw [hconf]; decide, r,
    0 + (pb.report goal .start).2.lookups, ?_, ?_⟩
  · exact (run_chain ..).trans (Prod.ext hr rfl)
  · rw [hconfidence, hconf]
    decide +kernel

end Backward

end Credence
