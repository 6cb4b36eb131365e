import Credence.Proofs.Store.Denotation
import Mathlib.Data.List.Basic
/-!
# Matching as a scan

The indexes only save work: the matches of a pattern are those that a look at every
atom in ascending order would find. A candidate list that comes from the name index,
from the links over a child that is known or from the kind index holds every atom
that the pattern can denote, each once and in order.
-/

namespace Credence

/-! ## Ascending lists -/

theorem mem_insertAscending {n m : Nat} {ns : List Nat} :
    m ∈ insertAscending n ns ↔ m = n ∨ m ∈ ns := by
  induction ns with
  | nil => simp [insertAscending]
  | cons k rest ih =>
    unfold insertAscending
    split
    · simp
    · split
      · next h => simp [h]
      · simp [ih, or_left_comm]

theorem ascending_insertAscending {n : Nat} {ns : List Nat} (h : ns.Pairwise (· < ·)) :
    (insertAscending n ns).Pairwise (· < ·) := by
  induction ns with
  | nil => exact List.pairwise_singleton _ _
  | cons k rest ih =>
    obtain ⟨hk, hrest⟩ := List.pairwise_cons.1 h
    unfold insertAscending
    split
    · next hlt =>
      refine List.pairwise_cons.2 ⟨fun m hm => ?_, h⟩
      rcases List.mem_cons.1 hm with rfl | hm
      · exact hlt
      · exact Nat.lt_trans hlt (hk m hm)
    · split
      · exact h
      · next hnlt hne =>
        refine List.pairwise_cons.2 ⟨fun m hm => ?_, ih hrest⟩
        rcases mem_insertAscending.1 hm with rfl | hm
        · omega
        · exact hk m hm

theorem mem_ascending {m : Nat} {ns : List Nat} : m ∈ ascending ns ↔ m ∈ ns := by
  unfold ascending
  induction ns with
  | nil => simp
  | cons n ns ih => rw [List.foldr_cons, mem_insertAscending, ih, List.mem_cons]

theorem ascending_ascending (ns : List Nat) : (ascending ns).Pairwise (· < ·) := by
  unfold ascending
  induction ns with
  | nil => exact List.Pairwise.nil
  | cons n ns ih => exact ascending_insertAscending ih

/-- Ascending lists that hold the same are the same. -/
theorem eq_of_ascending {xs ys : List Nat} (hx : xs.Pairwise (· < ·)) (hy : ys.Pairwise (· < ·))
    (h : ∀ x, x ∈ xs ↔ x ∈ ys) : xs = ys := by
  refine List.Perm.eq_of_pairwise (fun a b _ _ hab hba => absurd hab (Nat.lt_asymm hba)) hx hy ?_
  exact (List.perm_ext_iff_of_nodup (hx.imp Nat.ne_of_lt) (hy.imp Nat.ne_of_lt)).2 h

/-- An ascending list is what it holds of a longer ascending list. -/
theorem eq_filter_of_ascending {xs ys : List Nat} (hx : xs.Pairwise (· < ·))
    (hy : ys.Pairwise (· < ·)) (h : ∀ x ∈ xs, x ∈ ys) : xs = ys.filter fun y => xs.contains y := by
  refine eq_of_ascending hx (hy.sublist List.filter_sublist) fun x => ?_
  rw [List.mem_filter, List.contains_iff_mem]
  exact ⟨fun hxs => ⟨h x hxs, hxs⟩, fun hxs => hxs.2⟩

namespace Store

variable {s : Store}

/-- All bound atoms are in the store. -/
def Holds (s : Store) (b : Bindings) : Prop := ∀ v id, b.get? v = some id → s.contains id = true

theorem holds_empty (s : Store) : s.Holds .empty := nofun

/-! ## Candidates -/

theorem mem_anchors (h : s.Inv) {b b₁ : Bindings} (he : b.Extends b₁) {p : Pattern}
    {below : List AtomId} (hp : s.anchors b p = some below) {id : AtomId}
    (hd : s.Denotes b₁ p id) : id ∈ below := by
  cases p with
  | var v =>
    unfold anchors at hp
    unfold Denotes at hd
    obtain ⟨x, hx, rfl⟩ := Option.map_eq_some_iff.1 hp
    rw [he v x hx] at hd
    exact List.mem_singleton.2 (Option.some.inj hd).symm
  | node k name =>
    unfold anchors at hp
    unfold Denotes at hd
    cases hp
    obtain ⟨a, ha, hk, hn⟩ := hd
    obtain ⟨hmem, rfl⟩ := (get?_some_iff h.formed.ascending).1 ha
    refine List.mem_filter.2 ⟨?_, (hasKind_iff h.formed.ascending).2 ⟨a, hmem, rfl, hk⟩⟩
    rw [h.indexed.named_eq, mem_idsWhere]
    exact ⟨a, hmem, by simpa using hn, rfl⟩
  | link k cs =>
    unfold anchors at hp
    cases hp

theorem contains_of_mem_anchors (h : s.Inv) {b : Bindings} (hb : s.Holds b) {p : Pattern}
    {below : List AtomId} (hp : s.anchors b p = some below) {id : AtomId} (hid : id ∈ below) :
    s.contains id = true := by
  cases p with
  | var v =>
    unfold anchors at hp
    obtain ⟨x, hx, rfl⟩ := Option.map_eq_some_iff.1 hp
    rw [List.mem_singleton.1 hid]
    exact hb v x hx
  | node k name =>
    unfold anchors at hp
    cases hp
    have hn := (List.mem_filter.1 hid).1
    rw [h.indexed.named_eq, mem_idsWhere] at hn
    obtain ⟨a, ha, _, rfl⟩ := hn
    exact contains_iff.2 (mem_ids.2 ⟨a, ha, rfl⟩)
  | link k cs =>
    unfold anchors at hp
    cases hp

/-- The links over any of some stored atoms. -/
theorem linksOverAny_eq (h : s.Inv) (k : Kind) {below : List AtomId}
    (hb : ∀ id ∈ below, s.contains id = true) :
    ∃ ids, s.linksOverAny k below = .ok ids ∧ ids.Pairwise (· < ·) ∧
      ∀ id, id ∈ ids ↔ ∃ a ∈ s.atoms, a.id = id ∧ a.kind = k ∧ ∃ x ∈ below, x ∈ a.outgoing := by
  have hmap : below.mapM (fun id =>
      if s.contains id then Except.ok ((s.linksOver id).filter (s.hasKind k))
      else .error (Error.notFound (.int (Int.ofNat id)))) =
      Except.ok (below.map fun id => (s.linksOver id).filter (s.hasKind k)) := by
    induction below with
    | nil => rfl
    | cons x xs ih =>
      rw [List.mapM_cons, if_pos (hb x (List.mem_cons_self ..)),
        ih fun id hid => hb id (List.mem_cons_of_mem _ hid)]
      rfl
  refine ⟨_, by unfold linksOverAny; rw [hmap]; rfl, ascending_ascending _, fun id => ?_⟩
  rw [mem_ascending, List.mem_flatten]
  constructor
  · rintro ⟨ids, hids, hid⟩
    obtain ⟨x, hx, rfl⟩ := List.mem_map.1 hids
    obtain ⟨hover, hkind⟩ := List.mem_filter.1 hid
    rw [h.indexed.linksOver_eq, mem_idsWhere] at hover
    obtain ⟨a, ha, hout, rfl⟩ := hover
    obtain ⟨c, hc, hcid, hck⟩ := (hasKind_iff h.formed.ascending).1 hkind
    have hac : s.get? a.id = some a := (get?_some_iff h.formed.ascending).2 ⟨ha, rfl⟩
    rw [(get?_some_iff h.formed.ascending).2 ⟨hc, hcid⟩] at hac
    obtain rfl := Option.some.inj hac
    exact ⟨c, ha, rfl, hck, x, hx, List.contains_iff_mem.1 hout⟩
  · rintro ⟨a, ha, rfl, hk, x, hx, hout⟩
    refine ⟨_, List.mem_map.2 ⟨x, hx, rfl⟩, List.mem_filter.2 ⟨?_, ?_⟩⟩
    · rw [h.indexed.linksOver_eq, mem_idsWhere]
      exact ⟨a, ha, List.contains_iff_mem.2 hout, rfl⟩
    · exact (hasKind_iff h.formed.ascending).2 ⟨a, ha, rfl, hk⟩

/-- A child that is known stands for an atom in the slot of that child. -/
theorem exists_anchor {b b₁ : Bindings} (h : s.Inv) (he : b.Extends b₁) {cs : List Pattern}
    {ids below : List AtomId} (hcs : cs.findSome? (s.anchors b) = some below)
    (hd : s.DenoteEach b₁ cs ids) : ∃ x ∈ below, x ∈ ids := by
  induction cs generalizing ids with
  | nil => cases hcs
  | cons c cs ih =>
    cases ids with
    | nil => exact absurd hd (by simp [DenoteEach])
    | cons id ids =>
      unfold DenoteEach at hd
      rw [List.findSome?_cons] at hcs
      split at hcs
      · next hc =>
        cases hcs
        exact ⟨id, mem_anchors h he hc hd.1, List.mem_cons_self ..⟩
      · obtain ⟨x, hx, hxs⟩ := ih hcs hd.2
        exact ⟨x, hx, List.mem_cons_of_mem _ hxs⟩

/-- What atoms have to be to be worth trying: stored, in ascending order, and all that the pattern
can denote. -/
structure Promising (s : Store) (p : Pattern) (b : Bindings) (ids : List AtomId) : Prop where
  ascending : ids.Pairwise (· < ·)
  stored : ∀ id ∈ ids, id ∈ s.ids
  complete : ∀ b₁ id, b.Extends b₁ → id ∈ s.ids → s.Denotes b₁ p id → id ∈ ids

/-- The atoms of a list that an index keeps for a property that the pattern asks for. -/
theorem promising_idsWhere (h : s.Inv) {p : Pattern} {b : Bindings} {asks : Atom → Bool}
    (hasks : ∀ b₁ a, s.get? a.id = some a → s.Denotes b₁ p a.id → asks a = true) :
    s.Promising p b (s.idsWhere asks) := by
  refine ⟨ascending_idsWhere h.formed.ascending _, fun id hid => ?_, fun b₁ id _ hid hd => ?_⟩
  · obtain ⟨a, ha, _, rfl⟩ := mem_idsWhere.1 hid
    exact mem_ids.2 ⟨a, ha, rfl⟩
  · obtain ⟨a, ha, rfl⟩ := mem_ids.1 hid
    have hget : s.get? a.id = some a := (get?_some_iff h.formed.ascending).2 ⟨ha, rfl⟩
    exact mem_idsWhere.2 ⟨a, ha, hasks b₁ a hget hd, rfl⟩

/-- A bound variable can only denote the atom it is bound to. -/
theorem promising_bound {b : Bindings} {v : String} {x : AtomId} (hv : b.get? v = some x)
    (hx : s.contains x = true) : s.Promising (.var v) b [x] := by
  refine ⟨List.pairwise_singleton _ _, fun id hid => ?_, fun b₁ id he _ hd => ?_⟩
  · rw [List.mem_singleton.1 hid]
    exact contains_iff.1 hx
  · unfold Denotes at hd
    rw [he v x hv] at hd
    exact List.mem_singleton.2 (Option.some.inj hd).symm

/-- Where some child of a link is known, only links over the atoms that it stands for are tried. -/
theorem promising_linksOverAny (h : s.Inv) {b : Bindings} (hb : s.Holds b) {k : Kind}
    {cs : List Pattern} {below : List AtomId} (hcs : cs.findSome? (s.anchors b) = some below) :
    ∃ ids, s.linksOverAny k below = .ok ids ∧ s.Promising (.link k cs) b ids := by
  obtain ⟨c, _, hc⟩ := List.exists_of_findSome?_eq_some hcs
  obtain ⟨ids, hids, hpw, hmem⟩ :=
    linksOverAny_eq h k fun id hid => contains_of_mem_anchors h hb hc hid
  refine ⟨ids, hids, hpw, fun id hid => ?_, fun b₁ id he _ hd => ?_⟩
  · obtain ⟨a, ha, rfl, _⟩ := (hmem id).1 hid
    exact mem_ids.2 ⟨a, ha, rfl⟩
  · unfold Denotes at hd
    obtain ⟨a, ha, hk, hd⟩ := hd
    obtain ⟨hstored, rfl⟩ := (get?_some_iff h.formed.ascending).1 ha
    exact (hmem a.id).2 ⟨a, hstored, rfl, hk, exists_anchor h he hcs hd⟩

theorem candidates_spec (h : s.Inv) (p : Pattern) {b : Bindings} (hb : s.Holds b) :
    ∃ ids, s.candidates p b = .ok ids ∧ s.Promising p b ids := by
  unfold candidates
  cases p with
  | var v =>
    dsimp only
    cases hv : b.get? v with
    | none => exact ⟨s.ids, rfl, h.formed.ascending, fun _ hid => hid, fun _ _ _ hid _ => hid⟩
    | some x =>
      have hx := hb v x hv
      exact ⟨[x], by simp only [hx, if_true], promising_bound hv hx⟩
  | node k name =>
    refine ⟨s.named name, rfl, ?_⟩
    rw [h.indexed.named_eq]
    refine promising_idsWhere h fun b₁ a hget hd => ?_
    unfold Denotes at hd
    obtain ⟨c, hc, _, hn⟩ := hd
    rw [hget] at hc
    cases hc
    simpa using hn
  | link k cs =>
    dsimp only
    cases hcs : cs.findSome? (s.anchors b) with
    | some below => exact promising_linksOverAny h hb hcs
    | none =>
      -- No child is known: every link of the kind is tried.
      refine ⟨s.idsOf k, rfl, ?_⟩
      rw [h.indexed.idsOf_eq]
      refine promising_idsWhere h fun b₁ a hget hd => ?_
      unfold Denotes at hd
      obtain ⟨c, hc, hk, _⟩ := hd
      rw [hget] at hc
      cases hc
      simpa using hk

/-! ## The scan -/

/-- The matches that a look at every atom finds. -/
def scan (s : Store) (p : Pattern) (b : Bindings) : List Match :=
  s.ids.filterMap fun id => (s.matchAtom p id b).map fun b => ⟨b, id⟩

/-- Matching through the indexes finds what a scan finds, in the same order. -/
theorem matchesFrom_eq_scan (h : s.Inv) (p : Pattern) {b : Bindings} (hb : s.Holds b) :
    s.matchesFrom p b = .ok (s.scan p b) := by
  obtain ⟨ids, hids, ⟨hpw, hstored, hall⟩⟩ := candidates_spec h p hb
  unfold matchesFrom scan
  rw [hids]
  refine congrArg Except.ok ?_
  dsimp only
  rw [eq_filter_of_ascending hpw h.formed.ascending hstored, List.filterMap_filter]
  refine List.filterMap_congr fun id hid => ?_
  split
  · rfl
  · next hout =>
    cases hm : s.matchAtom p id b with
    | none => rfl
    | some b' =>
      have hd := isMatch_of_matchAtom hm
      exact absurd (List.contains_iff_mem.2 (hall b' id hd.extension hid hd.denotes)) hout

theorem mem_scan {p : Pattern} {b : Bindings} {m : Match} :
    m ∈ s.scan p b ↔ m.atomId ∈ s.ids ∧ s.matchAtom p m.atomId b = some m.bindings := by
  unfold scan
  rw [List.mem_filterMap]
  constructor
  · rintro ⟨id, hid, hm⟩
    obtain ⟨b', hb', rfl⟩ := Option.map_eq_some_iff.1 hm
    exact ⟨hid, hb'⟩
  · rintro ⟨hid, hm⟩
    exact ⟨m.atomId, hid, by rw [hm]; rfl⟩

theorem ascending_scan (h : s.Inv) (p : Pattern) (b : Bindings) :
    ((s.scan p b).map Match.atomId).Pairwise (· < ·) := by
  refine h.formed.ascending.sublist ?_
  unfold scan
  induction s.ids with
  | nil => exact List.Sublist.refl _
  | cons id ids ih =>
    rw [List.filterMap_cons]
    split
    · exact ih.cons id
    · next m hm =>
      obtain ⟨b', _, rfl⟩ := Option.map_eq_some_iff.1 hm
      exact ih.cons_cons id

/-- What the matches of a pattern have to be: every stored atom that the pattern denotes under an
extension of the bindings, in ascending order and each once, with the only such extension. -/
structure IsScan (s : Store) (p : Pattern) (b : Bindings) (ms : List Match) : Prop where
  ascending : (ms.map Match.atomId).Pairwise (· < ·)
  complete : ∀ id, id ∈ ms.map Match.atomId ↔ s.contains id = true ∧ ∃ b', s.IsMatch p b b' id
  exact : ∀ m ∈ ms, s.IsMatch p b m.bindings m.atomId ∧
    ∀ b', s.IsMatch p b b' m.atomId → ∀ v, b'.get? v = m.bindings.get? v

theorem isScan_scan (h : s.Inv) (p : Pattern) (b : Bindings) : s.IsScan p b (s.scan p b) where
  ascending := ascending_scan h p b
  complete id := by
    rw [List.mem_map, contains_iff]
    constructor
    · rintro ⟨m, hm, rfl⟩
      obtain ⟨hid, hmatch⟩ := mem_scan.1 hm
      exact ⟨hid, m.bindings, isMatch_of_matchAtom hmatch⟩
    · rintro ⟨hid, b₁, hb₁⟩
      obtain ⟨b', hb', _⟩ := matchAtom_of_isMatch hb₁
      exact ⟨⟨b', id⟩, mem_scan.2 ⟨hid, hb'⟩, rfl⟩
  exact m hm := by
    obtain ⟨_, hmatch⟩ := mem_scan.1 hm
    refine ⟨isMatch_of_matchAtom hmatch, fun b₁ hb₁ => ?_⟩
    obtain ⟨b', hb', heq⟩ := matchAtom_of_isMatch hb₁
    rw [hmatch] at hb'
    exact Option.some.inj hb' ▸ heq

/-! ## Finding -/

theorem run_question_bind {α β : Type} (x : Reading α) (f : α → Reading β) (n : Nat) :
    StateT.run (ExceptT.run (x >>= f)) n =
      match StateT.run (ExceptT.run x) n with
      | (.ok a, n') => StateT.run (ExceptT.run (f a)) n'
      | (.error e, n') => (.error e, n') := by
  show StateT.run (ExceptT.bindCont f (StateT.run (ExceptT.run x) n).1)
    (StateT.run (ExceptT.run x) n).2 = _
  generalize StateT.run (ExceptT.run x) n = r
  obtain ⟨a | a, n'⟩ := r <;> rfl

theorem run_matchesFrom (s : Store) (p : Pattern) (b : Bindings) (n : Nat) :
    StateT.run (ExceptT.run (Reading.matchesFrom s p b)) n =
      (s.matchesFrom p b, n + lookupsFor p b) := by
  unfold Reading.matchesFrom
  cases s.matchesFrom p b <;> rfl

end Store

namespace Reading

variable {α β : Type}

/-- Whether the answer to a question is the same however many lookups were counted before. -/
def Steady (x : Reading α) : Prop :=
  ∀ n m, (StateT.run (ExceptT.run x) n).1 = (StateT.run (ExceptT.run x) m).1

theorem steady_of_except (x : Except Error α) : Steady (liftM x) := by
  intro n m
  cases x <;> rfl

theorem Steady.bind {x : Reading α} {f : α → Reading β} (hx : x.Steady) (hf : ∀ a, (f a).Steady) :
    (x >>= f).Steady := by
  intro n m
  have hsame := hx n m
  rw [Store.run_question_bind, Store.run_question_bind]
  generalize StateT.run (ExceptT.run x) n = r at hsame ⊢
  generalize StateT.run (ExceptT.run x) m = r' at hsame ⊢
  obtain ⟨a, n'⟩ := r
  obtain ⟨a', m'⟩ := r'
  obtain rfl : a = a' := hsame
  cases a with
  | error e => rfl
  | ok a => exact hf a n' m'

theorem steady_matchesFrom (s : Store) (p : Pattern) (b : Bindings) :
    (Reading.matchesFrom s p b).Steady := by
  intro n m
  rw [Store.run_matchesFrom, Store.run_matchesFrom]

theorem steady_lookup (s : Store) (p : Pattern) : (Reading.lookup s p).Steady :=
  (steady_matchesFrom s p .empty).bind fun ms => steady_of_except (.ok (ms.head?.map Match.atomId))

end Reading

namespace Store

/-- The first items of a list, as many as a limit allows. -/
def firstOf {α : Type} (limit : Option Nat) (xs : List α) : List α :=
  match limit with
  | none => xs
  | some k => xs.take k

/-- A search answers with the first matches. -/
theorem answer_find (s : Store) (p : Pattern) (limit : Option Nat) (n : Nat) {ms : List Match}
    (h : s.matchesFrom p .empty = .ok ms) :
    (StateT.run (ExceptT.run (Reading.find s p limit)) n).1 = .ok (firstOf limit ms) := by
  have hrun := run_matchesFrom s p .empty n
  rw [h] at hrun
  unfold Reading.find
  split
  · rfl
  · next k =>
    rw [run_question_bind, hrun]
    rfl
  · rw [hrun]
    rfl

/-- In every reachable store matching through the indexes is a scan of all atoms with the meaning
of patterns, from any bindings of stored atoms; a search with a limit gives the first matches. -/
theorem matchesFrom_isScan {s : Store} (h : s.Reachable) (p : Pattern) (b : Bindings)
    (hb : s.Holds b) :
    (∃ ms, s.matchesFrom p b = .ok ms ∧ s.IsScan p b ms) ∧
      ∃ ms, s.matchesFrom p .empty = .ok ms ∧ s.IsScan p .empty ms ∧ ∀ limit n,
        (StateT.run (ExceptT.run (Reading.find s p limit)) n).1 = .ok (firstOf limit ms) := by
  have hi := h.inv
  have hall := matchesFrom_eq_scan hi p (holds_empty s)
  refine ⟨⟨_, matchesFrom_eq_scan hi p hb, isScan_scan hi p b⟩,
    _, hall, isScan_scan hi p .empty, fun limit n => ?_⟩
  exact answer_find s p limit n hall

/-- A link over two nodes, the first of them bound beforehand. -/
theorem matchesFrom_isScan_link :
    let cat : Pattern := .node (.node .concept) "cat"
    let animal : Pattern := .node (.node .concept) "animal"
    let s := ((assert (.link (.link .inheritance) [cat, animal]) none).run.run empty).2
    let p : Pattern := .link (.link .inheritance) [.var "$X", .var "$Y"]
    let b : Bindings := ⟨[("$X", 1)]⟩
    s.Reachable ∧ s.Holds b ∧ s.matchesFrom p b = .ok [⟨⟨[("$X", 1), ("$Y", 2)]⟩, 3⟩] ∧
      ∃ ms, s.matchesFrom p b = .ok ms ∧ s.IsScan p b ms := by
  intro cat animal s p b
  have hs : s.Reachable := Reachable.single _
  have hb : s.Holds b := by
    intro v id hv
    have hid : id = 1 := by
      unfold b Table.get? Table.find at hv
      split at hv
      · exact (Option.some.inj hv).symm
      · cases hv
    rw [hid]
    decide
  exact ⟨hs, hb, rfl, (matchesFrom_isScan hs p b hb).1⟩

end Store

end Credence
