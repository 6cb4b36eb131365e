import Credence.Proofs.Inference.Forward.Iteration
import Credence.Proofs.Inference.Forward.Order
import Credence.Proofs.Store.Lookup
/-!
# What a run reports is new

A conclusion is passed over if the facts hold it with at least its confidence. What
they hold is read off the oldest atom of its tree, and it is stored in the atom that
assertions of the tree find. Where these are one, the confidence of this atom never
falls, so what is reported of the tree rises. Where they are not, what is reported
still exceeds the oldest atom, which no assertion reaches.
-/

namespace Credence.Forward

open Number Pattern Store

variable {c facts facts' : Store} {rules : List Rule} {params : Params}
  {ks ks' : List Conclusion} {q : Pattern} {t : Truth} {x : Float}

/-- Whether conclusions are new: each is more confident than those of its statement before it, and
than every atom of the copy that has this text. -/
structure News (c : Store) (ks : List Conclusion) : Prop where
  rising : ks.Pairwise fun k k' =>
    k'.statement = k.statement → k.truth.confidence < k'.truth.confidence
  above : ∀ k ∈ ks, ∀ a ∈ c.atoms, c.toText a.id = .ok k.statement →
    a.truth.confidence < k.truth.confidence

/-! ## What is not known -/

/-- What is not known is more confident than what looking for it finds. -/
theorem lt_of_unknown (h : facts.Inv) (ht : t.IsValid) {id : AtomId} {a : Atom}
    (hl : facts.lookup q = .ok (some id)) (ha : facts.get? id = some a)
    (hunknown : isKnown facts q t = .ok false) : a.truth.confidence < t.confidence := by
  rw [isKnown_eq hl] at hunknown
  unfold confidenceAt at hunknown
  rw [Option.bind_some, ha] at hunknown
  have hnot : ¬ t.confidence ≤ a.truth.confidence := of_decide_eq_false (Except.ok.inj hunknown)
  have hvalid := h.formed.valid a ((get?_some_iff h.formed.ascending).1 ha).1
  exact (lt_iff_not_le_of_inUnit hvalid.confidence ht.confidence).2 hnot

/-- Whether the atom of a tree has at least a confidence. -/
def Reaches (s : Store) (q : Pattern) (x : Float) : Prop := ∃ y, s.rating q = some y ∧ x ≤ y

theorem lt_of_reaches (h : facts.Inv) (ht : t.IsValid) (hx : inUnit x = true)
    (htraced : facts.Traced q) (hr : Reaches facts q x)
    (hunknown : isKnown facts q t = .ok false) : x < t.confidence := by
  obtain ⟨y, hy, hle⟩ := hr
  obtain ⟨id, a, hid, ha, rfl⟩ := exists_of_rating hy
  unfold Traced at htraced
  rw [hid] at htraced
  exact lt_of_le_of_lt_of_inUnit hx (inUnit_of_rating h hy) ht.confidence hle
    (lt_of_unknown h ht htraced ha hunknown)

section

variable {p : Pattern} {id : AtomId} (h : facts.Inv) (ht : t.IsValid)
  (hrun : (Store.assert p (some t)).run.run facts = (.ok id, facts'))
include h ht hrun

/-- An assertion lowers no confidence but that of the asserted tree. -/
theorem Reaches.assert (hr : Reaches facts q x) (hroot : q = p → x ≤ t.confidence) :
    Reaches facts' q x := by
  obtain ⟨y, hy, hle⟩ := hr
  have hrated := rated_of_assert h ht hrun q
  unfold Reaches
  generalize facts'.rating q = r at hrated ⊢
  cases hrated with
  | root hq hz =>
    obtain ⟨rfl, rfl⟩ := Prod.mk.inj (List.mem_singleton.1 hq)
    exact ⟨_, rfl, le_of_le_of_inUnit hz.right hz.left (hroot rfl) hz.ge⟩
  | part _ _ _ =>
    rw [hy]
    exact ⟨y, rfl, hle⟩
  | other _ _ => exact ⟨y, hy, hle⟩

theorem reaches_assert : Reaches facts' p t.confidence := by
  have hrated := rated_of_assert h ht hrun p
  unfold Reaches
  generalize facts'.rating p = r at hrated ⊢
  cases hrated with
  | root hq hz =>
    obtain ⟨_, rfl⟩ := Prod.mk.inj (List.mem_singleton.1 hq)
    exact ⟨_, rfl, hz.ge⟩
  | part _ _ hroot => exact absurd rfl (hroot _ (List.mem_singleton_self _))
  | other hroot _ => exact absurd rfl (hroot _ (List.mem_singleton_self _))

end

/-! ## What a run keeps -/

/-- What the facts and conclusions of a run keep. Where a tree is found where assertions find it,
its atom has at least the confidence it had in the copy and those that were reported since. -/
structure Progress (c facts : Store) (ks : List Conclusion) : Prop where
  overlay : Overlay c facts
  kept : ∀ q x, c.Traced q → c.rating q = some x → Reaches facts q x
  stored : ∀ k ∈ ks, ∃ q, Storable (q, k) ∧ (c.Traced q → Reaches facts q k.truth.confidence)
  rising : ks.Pairwise fun k k' => k'.statement = k.statement → c.Recognized k.statement →
    k.truth.confidence < k'.truth.confidence
  above : ∀ k ∈ ks, ∀ a, c.Eldest k.statement a → a.truth.confidence < k.truth.confidence

theorem progress_start (h : c.Inv) (hread : c.Readable) : Progress c c [] where
  overlay := overlay_refl h hread
  kept _ x _ hx := ⟨x, hx, le_refl_of_inUnit (inUnit_of_rating h hx)⟩
  stored := List.forall_mem_nil _
  rising := .nil
  above := List.forall_mem_nil _

/-- What has to be known of a pending statement to store it. -/
structure Fresh (c : Store) (ks : List Conclusion) (e : Pattern × Conclusion) : Prop where
  storable : Storable e
  rises : c.Traced e.1 → ∀ k ∈ ks, e.2.statement = k.statement →
    k.truth.confidence < e.2.truth.confidence
  above : ∀ a, c.Eldest e.2.statement a → a.truth.confidence < e.2.truth.confidence

theorem Fresh.append {e : Pattern × Conclusion} (h : Fresh c ks e) {k : Conclusion}
    (hne : e.2.statement ≠ k.statement) : Fresh c (ks ++ [k]) e := by
  refine ⟨h.storable, fun ht l hl heq => ?_, h.above⟩
  rcases List.mem_append.1 hl with hl | hl
  · exact h.rises ht l hl heq
  · exact absurd (List.mem_singleton.1 hl ▸ heq) hne

/-- Different entries of a round have different statements. -/
theorem Round.Keeps.apart {round : Round} (hk : round.Keeps facts rules params) :
    round.pending.values.Pairwise fun e e' => e'.2.statement ≠ e.2.statement := by
  have hkey : ∀ d ∈ round.pending.entries, d.2.2.statement = d.1 := by
    rintro ⟨text, p, k⟩ hd
    obtain ⟨htext, hstatement, _⟩ := hk.pending _ _ _ (Table.find_of_mem hk.nodup hd)
    exact hstatement.trans htext.symm
  refine List.pairwise_map.2 ((List.pairwise_map.1 hk.nodup).imp_of_mem fun hd hd' hne => ?_)
  rw [hkey _ hd, hkey _ hd']
  exact hne.symm

section

variable (hc : c.Inv) (hp : c.Plain)
include hc hp

/-- What an iteration collects is fresh: it was not known to the facts. -/
theorem Progress.fresh (h : Progress c facts ks) {round : Round}
    (hk : round.Keeps facts rules params) (hlegible : ∀ r ∈ rules, r.conclusion.Legible) :
    ∀ e ∈ round.pending.values, Fresh c ks e := by
  rintro ⟨q, k⟩ he
  have hs := hk.storable h.overlay.inv hlegible _ he
  have hunknown := (hk.worthy (List.mem_map_of_mem (f := fun e => (e.1, e.2.truth)) he)).unknown
  have htraced := h.overlay.traced hc hs.legible hs.ground
  refine ⟨hs, fun ht l hl heq => ?_, fun a ha => ?_⟩
  · obtain ⟨p, hl, hreaches⟩ := h.stored l hl
    obtain rfl : p = q :=
      toText_inj hl.ground hs.ground (hl.statement.symm.trans (heq.symm.trans hs.statement))
    exact lt_of_reaches h.overlay.inv hs.valid hl.valid.confidence (htraced ht) (hreaches ht)
      hunknown
  · rw [hs.statement] at ha
    have hfound := (found_iff_eldest hc hp hs.legible.wellKinded hs.ground ha.mem).2 ha
    by_cases he : c.existing q = some a.id
    · have ht := (traced_iff hc hfound).2 he
      exact lt_of_reaches h.overlay.inv hs.valid (hc.formed.valid a ha.mem).confidence (htraced ht)
        (h.kept q _ ht (rating_of_existing he (get?_eq_some hc ha.mem))) hunknown
    · -- The oldest atom is as it was in the copy, and it is the one that is looked at.
      have hget := h.overlay.get?_of_untraced hc hs.legible hs.ground hfound.denoted he
      rw [get?_eq_some hc ha.mem] at hget
      exact lt_of_unknown h.overlay.inv hs.valid
        ((lookup_eq_iff h.overlay.inv).2 (h.overlay.found_old hc hfound)) hget hunknown

/-- Storing one more statement. -/
theorem Progress.assert (h : Progress c facts ks) {k : Conclusion} (he : Fresh c ks (q, k))
    {id : AtomId} (hrun : (Store.assert q (some k.truth)).run.run facts = (.ok id, facts')) :
    Progress c facts' (ks ++ [k]) := by
  have hs := he.storable
  have hinv := h.overlay.inv
  refine ⟨h.overlay.assert hs.legible hs.valid hrun, fun p x ht hx => ?_, fun l hl => ?_, ?_,
    List.forall_mem_append.2 ⟨h.above, List.forall_mem_singleton.2 he.above⟩⟩
  · refine (h.kept p x ht hx).assert hinv hs.valid hrun ?_
    rintro rfl
    obtain ⟨id, a, hid, ha, rfl⟩ := exists_of_rating hx
    obtain ⟨hmem, rfl⟩ := (get?_some_iff hc.formed.ascending).1 ha
    have hfound : c.Found p (some a.id) := hid ▸ (lookup_eq_iff hc).1 ht
    have heldest := (found_iff_eldest hc hp hs.legible.wellKinded hs.ground hmem).1 hfound
    exact le_of_lt_of_inUnit (hc.formed.valid a hmem).confidence hs.valid.confidence
      (he.above a (hs.statement ▸ heldest))
  · rcases List.mem_append.1 hl with hl | hl
    · obtain ⟨p, hl', hreaches⟩ := h.stored l hl
      refine ⟨p, hl', fun ht => (hreaches ht).assert hinv hs.valid hrun ?_⟩
      rintro rfl
      exact le_of_lt_of_inUnit hl'.valid.confidence hs.valid.confidence
        (he.rises ht l hl (hs.statement.trans hl'.statement.symm))
    · rw [List.mem_singleton.1 hl]
      exact ⟨q, hs, fun _ => reaches_assert hinv hs.valid hrun⟩
  · refine List.pairwise_append.2 ⟨h.rising, List.pairwise_singleton .., fun l hl k' hk' => ?_⟩
    rw [List.mem_singleton.1 hk']
    intro heq hrecognized
    exact he.rises (hrecognized q hs.ground (hs.statement.symm.trans heq)) l hl heq

theorem Progress.accept {n : Nat} {es : List (Pattern × Conclusion)} (h : Progress c facts ks)
    (hes : ∀ e ∈ es, Fresh c ks e)
    (hapart : es.Pairwise fun e e' => e'.2.statement ≠ e.2.statement) {truncated : Bool}
    (hrun : Forward.accept n es facts ks = .ok (facts', ks', truncated)) :
    Progress c facts' ks' := by
  induction es generalizing facts ks with
  | nil =>
    cases hrun
    exact h
  | cons e es ih =>
    obtain ⟨p, k⟩ := e
    obtain ⟨he, hes⟩ := List.forall_mem_cons.1 hes
    obtain ⟨hne, hapart⟩ := List.pairwise_cons.1 hapart
    unfold Forward.accept at hrun
    split at hrun
    · cases hrun
      exact h
    · split at hrun
      · next hassert =>
        exact ih (h.assert hc hp he hassert) (fun d hd => (hes d hd).append (hne d hd)) hapart hrun
      · cases hrun

/-- Any number of iterations. -/
theorem Progress.iterate (hlegible : ∀ r ∈ rules, r.conclusion.Legible) {deadline : Deadline}
    {more iteration polls : Nat} {run last : Run} {outcome : Outcome}
    (h : Progress c run.facts run.conclusions)
    (hrejected : ∀ k x, run.rejected.get? k = some x → inUnit x = true ∧ ¬ x ≥ params.threshold)
    (hrun : Forward.iterate rules params deadline more iteration polls run = .ok (outcome, last)) :
    Progress c last.facts last.conclusions := by
  induction more generalizing iteration polls run with
  | zero =>
    cases hrun
    exact h
  | succ more ih =>
    have hkeeps : ∀ {round}, fireAll run.facts rules params iteration
        ⟨run.steps, .empty, run.rejected⟩ = .ok round → round.Keeps run.facts rules params :=
      fun hround => (fireAll_spec h.overlay.inv h.overlay.readable (keeps_empty hrejected _) hround).1
    cases iterates_of_iterate hrun with
    | expired _ => exact h
    | quiet _ _ => exact h
    | cut hround _ haccept =>
      have hk := hkeeps hround
      exact h.accept hc hp (h.fresh hc hp hk hlegible) hk.apart haccept
    | stored hround _ haccept hrest =>
      have hk := hkeeps hround
      exact ih (h.accept hc hp (h.fresh hc hp hk hlegible) hk.apart haccept) hk.rejected hrest

end

/-- Where all atoms have trees of their own, everything that is reported is new. -/
theorem Progress.news (h : Progress c facts ks) (hc : c.Inv) (hp : c.Plain) (hd : c.Distinct) :
    News c ks := by
  constructor
  · refine h.rising.imp_of_mem fun hk _ hless heq => hless heq fun q hground htext => ?_
    obtain ⟨p, hs, _⟩ := h.stored _ hk
    obtain rfl := toText_inj hground hs.ground (htext.trans hs.statement)
    exact hd.traced hc hp hs.legible.wellKinded hground
  · refine fun k hk a ha htext => h.above k hk a ⟨ha, htext, fun b hb htext' => ?_⟩
    obtain ⟨p, hs, _⟩ := h.stored k hk
    have ha := mem_ids.2 ⟨a, ha, rfl⟩
    have hb := mem_ids.2 ⟨b, hb, rfl⟩
    rw [hs.statement, toText_eq_iff hc hp hs.ground ha] at htext
    rw [hs.statement, toText_eq_iff hc hp hs.ground hb] at htext'
    exact Nat.le_of_eq (hd.eq_of_treeOf hc hp ha hb (htext.trans htext'.symm))

/-! ## Chaining -/

/-- What a run reports exceeds the oldest atom of its copy with that text, and so every one that is
no more confident than the oldest. What it reports again rises, if the oldest atom is the one that
assertions find. Where no two atoms of the copy have the same tree, everything is new. -/
theorem chain_reports_news {s : Store} (h : s.Reachable) (hp : s.Plain)
    (hlegible : ∀ r ∈ rules, r.conclusion.Legible) {premises : Option (List AtomId)}
    {clock : Clock} {result : Result}
    (hrun : chain s rules premises params clock = .ok result) :
    (result.conclusions.Pairwise fun k k' => k'.statement = k.statement →
      (scratch s premises).Recognized k.statement → k.truth.confidence < k'.truth.confidence) ∧
    (∀ k ∈ result.conclusions, ∀ a b, (scratch s premises).Eldest k.statement a →
      b ∈ (scratch s premises).atoms → (scratch s premises).toText b.id = .ok k.statement →
      b.truth.confidence ≤ a.truth.confidence → b.truth.confidence < k.truth.confidence) ∧
    ((scratch s premises).Distinct → News (scratch s premises) result.conclusions) := by
  have hc := inv_scratch h.inv premises
  have hplain := plain_scratch h.inv hp premises
  unfold chain at hrun
  obtain ⟨texts, _, hrun⟩ := bind_eq_ok hrun
  obtain ⟨⟨outcome, last⟩, hiterate, hrun⟩ := bind_eq_ok hrun
  cases hrun
  have hstart : Progress (scratch s premises) (scratch s premises) [] :=
    progress_start hc (readable_of_plain hplain)
  have hend := Progress.iterate hc hplain hlegible hstart (below_empty params) hiterate
  refine ⟨hend.rising, fun k hk a b ha hb _ hle => ?_, hend.news hc hplain⟩
  obtain ⟨q, hs, _⟩ := hend.stored k hk
  exact lt_of_le_of_lt_of_inUnit (hc.formed.valid b hb).confidence
    (hc.formed.valid a ha.mem).confidence hs.valid.confidence hle (hend.above k hk a ha)

namespace Rows

theorem distinct_pair : (scratch pair none).Distinct := by
  have hall : ∀ i ∈ (scratch pair none).ids, ∀ j ∈ (scratch pair none).ids,
      ((scratch pair none).toPattern i).toOption = ((scratch pair none).toPattern j).toOption →
        i = j := by decide +kernel
  exact fun i hi j hj hij => hall i hi j hj (congrArg Except.toOption hij)

/-- A store with one more atom. -/
def added (s : Store) (kind : String) (name : Value) (outgoing : List Value) (truth : Value) :
    Store :=
  ((Store.add (.text kind) name outgoing truth).run.run s).2

/-- Two nodes of the same thing. -/
def twins (truth : Value) : Store :=
  added (added .empty "Concept" (.text "a") [] truth) "Concept" (.text "a") [] .null

/-- Two nodes of the same thing and a row of the younger. -/
def listed : Store := added (twins .null) "List" .null [.int 2] (Truth.toValue ⟨0.8, 0.5⟩)

/-- Two nodes of the same thing, the older of them less confident, and another thing. -/
def veiled : Store := added (twins (Truth.toValue ⟨0.8, 0.5⟩)) "Concept" (.text "b") [] .null

/-- A rule that makes a row of a thing. -/
def enlist : Rule := ruleOf (thing "a") (row [thing "a"]) 1.0

/-- A rule from one thing to another. -/
def turn : Rule := ruleOf (thing "b") (thing "a") 0.8

theorem reachable_listed : listed.Reachable :=
  (((Store.Reachable.empty.add ..).add ..).add ..)

theorem reachable_veiled : veiled.Reachable :=
  (((Store.Reachable.empty.add ..).add ..).add ..)

theorem reports_enlist : reports (chain listed [enlist] none twice fun _ => 0) =
    some [("(List (Concept \"a\"))", 0.9 * 1.0), ("(List (Concept \"a\"))", 0.9 * 1.0)] := by
  decide +kernel

theorem reports_turn : reports (chain veiled [turn] none twice fun _ => 0) =
    some [("(Concept \"a\")", 0.9 * 0.8)] := by decide +kernel

end Rows

open Rows in
/-- All that comes of a row of two things is new. -/
theorem chain_reports_news_swap : ∃ result,
    chain pair [swap] none .default (fun _ => 0) = .ok result ∧ pair.Reachable ∧ pair.Plain ∧
      (∀ r ∈ [swap], r.conclusion.Legible) ∧ result.conclusions.length = 2 ∧
      News (scratch pair none) result.conclusions := by
  have hlegible : ∀ r ∈ [swap], r.conclusion.Legible :=
    List.forall_mem_singleton.2 grammatical_swap.legible
  obtain ⟨result, hrun, hreports⟩ := exists_of_reports reports_swap
  refine ⟨result, hrun, Store.Reachable.single _, plain_pair, hlegible, ?_, ?_⟩
  · rw [← List.length_map, hreports]
    rfl
  · exact (chain_reports_news (Store.Reachable.single _) plain_pair hlegible hrun).2.2 distinct_pair

open Rows in
/-- Where a thing has two nodes, a run can report a row again with the same confidence, since it
looks at one row and stores another, and a thing that the younger node holds with more. -/
theorem not_chain_reports_news :
    (∃ result, listed.Reachable ∧ listed.Plain ∧ enlist.conclusion.Legible ∧
      twice.useUncertainty = true ∧ chain listed [enlist] none twice (fun _ => 0) = .ok result ∧
      ¬ News (scratch listed none) result.conclusions) ∧
    ∃ result, veiled.Reachable ∧ veiled.Plain ∧ turn.conclusion.Legible ∧
      twice.useUncertainty = true ∧ chain veiled [turn] none twice (fun _ => 0) = .ok result ∧
      ¬ News (scratch veiled none) result.conclusions := by
  have hlisted : listed.Plain := by
    unfold Store.Plain
    decide
  have hveiled : veiled.Plain := by
    unfold Store.Plain
    decide
  have hthing : (thing "a").Legible := (Grammatical.node (by decide) "a").legible
  constructor
  · obtain ⟨result, hrun, hreports⟩ := exists_of_reports reports_enlist
    refine ⟨result, reachable_listed, hlisted, .link .list (List.forall_mem_singleton.2 hthing),
      rfl, hrun, fun hnews => ?_⟩
    have hrising := hnews.rising
    rw [← List.pairwise_map (f := fun k : Conclusion => (k.statement, k.truth.confidence))
      (R := fun e e' => e'.1 = e.1 → e.2 < e'.2), hreports] at hrising
    exact absurd hrising (by decide +kernel)
  · obtain ⟨result, hrun, hreports⟩ := exists_of_reports reports_turn
    refine ⟨result, reachable_veiled, hveiled, hthing, rfl, hrun, fun hnews => ?_⟩
    have habove : ∀ e ∈ result.conclusions.map (fun k => (k.statement, k.truth.confidence)),
        ∀ a ∈ (scratch veiled none).atoms, ((scratch veiled none).toText a.id).toOption = some e.1 →
          a.truth.confidence < e.2 :=
      List.forall_mem_map.2 fun k hk a ha htext => hnews.above k hk a ha (ok_of_toOption htext)
    rw [hreports] at habove
    exact absurd habove (by decide +kernel)

end Credence.Forward
