import Credence.Proofs.Inference.Forward.Founded
import Credence.Proofs.Ranking.Permutation
/-!
# Soundness of forward chaining

A run starts from a copy of the premises and keeps every atom of it. Whatever a round
collects is founded on that copy, so storing it leaves every atom founded: the root of
a conclusion by the rule that fired, the parts that were missing by being parts of it.
Every conclusion of a run is founded on the copy that it started from.
-/

namespace Credence.Forward

open Number Pattern

/-- Whether a conclusion is reported. -/
def Reported (ks : List Conclusion) (p : Pattern) (c : Float) : Prop :=
  ∃ k ∈ ks, k.statement = p.toText ∧ k.truth.confidence = c

theorem Reported.append {ks ks' : List Conclusion} {p : Pattern} {c : Float}
    (h : Reported ks p c) : Reported (ks ++ ks') p c := by
  obtain ⟨k, hk, htext, hc⟩ := h
  exact ⟨k, List.mem_append_left _ hk, htext, hc⟩

/-- What the rules of a run have to be: checked ones whose conclusions name no variable node. -/
structure Written (r : Rule) : Prop where
  checked : r.Checked
  premises : ∀ p ∈ r.premises, p.WellKinded
  conclusion : r.conclusion.Grammatical

theorem grammatical_of_parsePattern {text : String} {p : Pattern}
    (h : parsePattern text = .ok p) : p.Grammatical := by
  unfold parsePattern at h
  cases hp : Pattern.parse text with
  | error e =>
    rw [hp] at h
    cases h
  | ok q =>
    rw [hp] at h
    cases h
    exact grammatical_of_parse hp

/-- Rules that are read from what is written are such rules. -/
theorem written_of_ofSpec {spec : RuleSpec} {r : Rule} (h : Rule.ofSpec spec = .ok r) :
    Written r := by
  unfold Rule.ofSpec at h
  obtain ⟨premises, hpremises, h⟩ := bind_eq_ok h
  obtain ⟨conclusion, hconclusion, h⟩ := bind_eq_ok h
  obtain ⟨hchecked, rfl⟩ := Rule.checked_of_check h
  refine ⟨hchecked, fun p hp => ?_, grammatical_of_parsePattern hconclusion⟩
  obtain ⟨text, _, hparse⟩ := exists_of_mem_forall₂ (forall₂_of_mapM hpremises) hp
  exact (grammatical_of_parsePattern hparse).wellKinded

/-- What the facts and conclusions of a run keep. -/
structure Sound (copy : Store) (params : Params) (rules : List Rule) (facts : Store)
    (ks : List Conclusion) : Prop where
  inv : facts.Inv
  plain : facts.Plain
  distinct : copy.Distinct → facts.Distinct
  kept : ∀ id ∈ copy.ids, id ∈ facts.ids ∧ facts.treeOf id = copy.treeOf id
  held : Held copy params rules (Reported ks) facts
  conclusions : ∀ k ∈ ks, ∃ p, k.statement = p.toText ∧
    Founded copy params rules (Reported ks) p k.truth.confidence

/-- What a round has to know of a conclusion that it is about to store. -/
structure Supported (copy : Store) (params : Params) (rules : List Rule) (ks : List Conclusion)
    (p : Pattern) (k : Conclusion) : Prop where
  statement : k.statement = p.toText
  grammatical : p.Grammatical
  valid : k.truth.IsValid
  founded : Founded copy params rules (Reported ks) p k.truth.confidence

variable {copy facts facts' : Store} {params : Params} {rules : List Rule}
  {ks ks' : List Conclusion}

/-- A copy is founded on itself. -/
theorem sound_start (h : copy.Inv) (hp : copy.Plain) : Sound copy params rules copy [] := by
  refine ⟨h, hp, id, fun id hid => ⟨hid, rfl⟩, fun a ha => ⟨_, .fact ha ?_, fun hu => if_pos hu⟩,
    List.forall_mem_nil _⟩
  exact Store.toPattern_eq_treeOf h hp (Store.mem_ids.2 ⟨a, ha, rfl⟩)

theorem Supported.append {p : Pattern} {k : Conclusion} (h : Supported copy params rules ks p k) :
    Supported copy params rules (ks ++ ks') p k :=
  ⟨h.statement, h.grammatical, h.valid, h.founded.mono fun _ _ => Reported.append⟩

/-! ## Rounds -/

/-- Whether everything that a round has collected is supported. -/
def Round.Supported (copy : Store) (params : Params) (rules : List Rule) (ks : List Conclusion)
    (round : Round) : Prop :=
  ∀ e ∈ round.pending.entries, Forward.Supported copy params rules ks e.2.1 e.2.2

theorem supported_empty (steps : List Firing) (rejected : Table String Float) :
    Round.Supported copy params rules ks ⟨steps, .empty, rejected⟩ := List.forall_mem_nil _

theorem supported_record {round : Round} (h : round.Supported copy params rules ks)
    {iteration : Nat} {r : Rule} {texts : List String} {q : Pattern} {t : Truth}
    (hg : q.Grammatical) (ht : t.IsValid)
    (hf : Founded copy params rules (Reported ks) q t.confidence) :
    (round.record params iteration r texts q t).Supported copy params rules ks := by
  unfold Round.record
  dsimp only
  split
  · intro e he
    rcases Table.mem_of_mem_insert he with hold | rfl
    · exact h e hold
    · exact ⟨rfl, hg, ht, hf⟩
  · exact h

/-- One firing collects at most a supported conclusion. -/
theorem supported_fire (h : Sound copy params rules facts ks) {r : Rule} (hr : r ∈ rules)
    (he : r.enabled = true) (hw : Written r) {sol : Solution}
    (hs : facts.Solved r.premises .empty sol) {iteration : Nat} {round round' : Round}
    (hround : round.Supported copy params rules ks)
    (hrun : fire facts params iteration r round sol = .ok round') :
    round'.Supported copy params rules ks := by
  unfold fire at hrun
  obtain ⟨q, hq, hrun⟩ := bind_eq_ok hrun
  split at hrun
  · cases hrun
    exact hround
  · obtain ⟨t, ht, hrun⟩ := bind_eq_ok hrun
    obtain ⟨hvalid, hfounded⟩ := founded_of_firing h.inv h.plain h.held hr he hw.checked hw.premises
      hs hq ht
    obtain ⟨known, _, hrun⟩ := bind_eq_ok hrun
    dsimp only at hrun
    split at hrun
    · cases hrun
      exact hround
    · obtain ⟨texts, _, hrun⟩ := bind_eq_ok hrun
      cases hrun
      refine supported_record hround ?_ hvalid hfounded
      rw [Store.eq_of_instantiate h.inv h.plain hs.holds hq]
      exact hw.conclusion.subst fun v _ => Store.grammatical_treesOf h.inv h.plain hs.holds v

theorem supported_fireAll (h : Sound copy params rules facts ks) {rs : List Rule}
    (hrs : ∀ r ∈ rs, r ∈ rules ∧ r.enabled = true ∧ Written r) {iteration : Nat}
    {round round' : Round} (hround : round.Supported copy params rules ks)
    (hrun : fireAll facts rs params iteration round = .ok round') :
    round'.Supported copy params rules ks := by
  refine foldlM_induct hround (fun r hr c c' hc hstep => ?_) hrun
  obtain ⟨hmem, he, hw⟩ := hrs r hr
  obtain ⟨sols, hsols, hstep⟩ := bind_eq_ok hstep
  refine foldlM_induct hc (fun sol hsol d d' hd hfire => ?_) hstep
  have hsolved := Store.solved_of_solutions h.inv (Store.holds_empty facts) hsols hsol
  exact supported_fire h hmem he hw hsolved hd hfire

/-! ## Storing conclusions -/

/-- Storing a supported conclusion keeps everything founded. -/
theorem Sound.assert (h : Sound copy params rules facts ks) {p : Pattern} {k : Conclusion}
    (hk : Supported copy params rules ks p k) {root : AtomId}
    (hrun : (Store.assert p (some k.truth)).run.run facts = (.ok root, facts')) :
    Sound copy params rules facts' (ks ++ [k]) := by
  have hgrown := Store.asserted_of_run hk.grammatical hk.valid h.inv h.plain hrun
  have hfounded : Founded copy params rules (Reported (ks ++ [k])) p k.truth.confidence :=
    hk.founded.mono fun _ _ => Reported.append
  have hreported : Reported (ks ++ [k]) p k.truth.confidence :=
    ⟨k, List.mem_append_right _ (List.mem_singleton_self k), hk.statement, rfl⟩
  have hkept : ∀ id ∈ copy.ids, id ∈ facts'.ids ∧ facts'.treeOf id = copy.treeOf id := by
    intro id hid
    obtain ⟨hin, htree⟩ := h.kept id hid
    obtain ⟨hin', htree'⟩ := hgrown.kept id hin
    exact ⟨hin', htree'.trans htree⟩
  refine ⟨hgrown.inv, hgrown.plain, fun hd => hgrown.distinct (h.distinct hd), hkept,
    fun a ha => ?_, fun l hl => ?_⟩
  · rcases hgrown.atoms a ha with hold | ⟨htree, htruth⟩ | ⟨hnew, hpart, htruth⟩
    · obtain ⟨c, hc, hconf⟩ := h.held a hold
      rw [(hgrown.kept a.id (Store.mem_ids.2 ⟨a, hold, rfl⟩)).2]
      exact ⟨c, hc.mono fun _ _ => Reported.append, hconf⟩
    · rw [htree, htruth]
      exact ⟨_, hfounded, fun _ => rfl⟩
    · -- A part that is new belongs to a reported tree, and no atom of the copy stood for it.
      rw [htruth]
      refine ⟨_, .part hfounded hreported hpart fun hd id hid heq => hnew ?_, fun hu => if_pos hu⟩
      obtain ⟨hin, htree⟩ := h.kept id hid
      obtain ⟨hin', htree'⟩ := hkept id hid
      rw [Store.treeOf_of_toPattern heq] at htree'
      have hsame := (hgrown.distinct (h.distinct hd)).eq_of_treeOf hgrown.inv hgrown.plain
        (Store.mem_ids.2 ⟨a, ha, rfl⟩) hin' htree'.symm
      rwa [hsame]
  · rcases List.mem_append.1 hl with hl | hl
    · obtain ⟨q, htext, hq⟩ := h.conclusions l hl
      exact ⟨q, htext, hq.mono fun _ _ => Reported.append⟩
    · rw [List.mem_singleton.1 hl]
      exact ⟨p, hk.statement, hfounded⟩

theorem Sound.accept {maxResults : Nat} {pending : List (Pattern × Conclusion)}
    (hpending : ∀ e ∈ pending, Supported copy params rules ks e.1 e.2)
    (h : Sound copy params rules facts ks) {more : Bool}
    (hrun : Forward.accept maxResults pending facts ks = .ok (facts', ks', more)) :
    Sound copy params rules facts' ks' := by
  induction pending generalizing facts ks with
  | nil =>
    cases hrun
    exact h
  | cons e rest ih =>
    obtain ⟨p, k⟩ := e
    obtain ⟨hk, hrest⟩ := List.forall_mem_cons.1 hpending
    unfold Forward.accept at hrun
    split at hrun
    · cases hrun
      exact h
    · split at hrun
      · next hassert =>
        exact ih (fun e he => (hrest e he).append) (h.assert hk hassert) hrun
      · cases hrun

/-! ## Runs -/

/-- Every number of iterations keeps everything founded. -/
theorem Sound.iterate {rs : List Rule} (hrs : ∀ r ∈ rs, r ∈ rules ∧ r.enabled = true ∧ Written r)
    {deadline : Deadline} {more iteration polls : Nat} {run run' : Run} {outcome : Outcome}
    (h : Sound copy params rules run.facts run.conclusions)
    (hrun : Forward.iterate rs params deadline more iteration polls run = .ok (outcome, run')) :
    Sound copy params rules run'.facts run'.conclusions := by
  induction more generalizing iteration polls run with
  | zero =>
    cases hrun
    exact h
  | succ more ih =>
    unfold Forward.iterate at hrun
    split at hrun
    · cases hrun
      exact h
    · obtain ⟨round, hround, hrun⟩ := bind_eq_ok hrun
      have hsupported := supported_fireAll h hrs (supported_empty _ _) hround
      dsimp only at hrun
      split at hrun
      · cases hrun
        exact h
      · obtain ⟨⟨facts, ks, truncated⟩, haccept, hrun⟩ := bind_eq_ok hrun
        have hnext : Sound copy params rules facts ks := by
          refine h.accept (fun e he => ?_) haccept
          obtain ⟨d, hd, rfl⟩ := List.mem_map.1 he
          exact hsupported d hd
        dsimp only at hrun
        split at hrun
        · cases hrun
          exact hnext
        · exact ih hnext hrun

/-- The copy that a run starts from: of some atoms and what they refer to, or of all atoms. -/
def scratch (s : Store) (premises : Option (List AtomId)) : Store :=
  match premises with
  | none => s.snapshot
  | some ids => s.subset ids

theorem inv_scratch {s : Store} (h : s.Inv) (premises : Option (List AtomId)) :
    (scratch s premises).Inv := by
  cases premises with
  | none => exact h.subset s.ids
  | some ids => exact h.subset ids

theorem plain_scratch {s : Store} (h : s.Inv) (hp : s.Plain) (premises : Option (List AtomId)) :
    (scratch s premises).Plain := by
  cases premises with
  | none => exact hp.subset h s.ids
  | some ids => exact hp.subset h ids

/-! ## Small runs -/

namespace Rows

/-- A thing of some name. -/
def thing (name : String) : Pattern := .node (.node .concept) name

/-- A row of things. -/
def row (ps : List Pattern) : Pattern := .link (.link .list) ps

/-- A store that holds one tree. -/
def storeOf (p : Pattern) : Store := ((Store.assert p none).run.run .empty).2

/-- A store that holds a row of two things. -/
def pair : Store := storeOf (row [thing "a", thing "b"])

/-- A store that holds a row of one thing. -/
def single : Store := storeOf (row [thing "a"])

/-- A rule from one premise. -/
def ruleOf (premise conclusion : Pattern) (reliability : Float) : Rule :=
  ⟨.text "rule", [premise], conclusion, .real reliability, .null, .int 0, true⟩

/-- A rule that speaks of the row the other way round. -/
def swap : Rule :=
  ruleOf (row [.var "$X", .var "$Y"]) (row [row [.var "$Y", .var "$X"]]) 0.8

theorem plain_pair : pair.Plain := by
  unfold Store.Plain
  decide

theorem grammatical_swap : swap.conclusion.Grammatical := by
  refine .link .list (List.forall_mem_singleton.2 (.link .list ?_))
  simp only [List.forall_mem_cons]
  exact ⟨.var "$Y", .var "$X", List.forall_mem_nil _⟩

/-- A rule that makes a row of a row. -/
def wrap : Rule := ruleOf (row [.var "$X"]) (row [row [.var "$X"]]) 0.8

/-- A rule whose conclusion names a variable node. -/
def mark : Rule := ruleOf (row [.var "$X", .var "$Y"])
  (row [row [.var "$Y"], .node (.node .variable) "$X"]) 1.0

/-- Usual parameters, but for two iterations only. -/
def twice : Params := { Params.default with maxSteps := 2 }

/-- Two iterations in which the confidences of atoms do not count. -/
def certain : Params := { twice with useUncertainty := false }

/-- What a run reports. -/
def reports (x : Except Error Result) : Option (List (String × Float)) :=
  x.toOption.map fun result => result.conclusions.map fun k => (k.statement, k.truth.confidence)

theorem exists_of_reports {x : Except Error Result} {ks : List (String × Float)}
    (h : reports x = some ks) : ∃ result, x = .ok result ∧
      result.conclusions.map (fun k => (k.statement, k.truth.confidence)) = ks :=
  exists_of_map_toOption h

theorem reports_swap : reports (chain pair [swap] none .default fun _ => 0) =
    some [("(List (List (Concept \"b\") (Concept \"a\")))", 0.9 * 0.8),
      ("(List (List (Concept \"a\") (Concept \"b\")))", 0.9 * 0.8)] := by decide +kernel

theorem reports_wrap : reports (chain single [wrap] none certain fun _ => 0) =
    some [("(List (List (Concept \"a\")))", 0.8),
      ("(List (List (List (Concept \"a\"))))", 0.8)] := by decide +kernel

theorem reports_mark : reports (chain pair [mark] none twice fun _ => 0) =
    some [("(List (List (Concept \"b\")) (Variable \"$X\"))", 0.9),
      ("(List (List (List (Concept \"b\"))) (Variable \"$X\"))", 0.9)] := by decide +kernel

/-- Whether a tree is that of an atom of a copy, with the confidence that counts. -/
def Copied (copy : Store) (params : Params) (t : Pattern) (c : Float) : Prop :=
  ∃ a ∈ copy.atoms, copy.toPattern a.id = .ok t ∧ c = counted params a.truth.confidence

/-- Whether a run reports a statement that its copy does not derive with that confidence. -/
def Exceeds (s : Store) (r : Rule) (params : Params) : Prop :=
  ∃ result, chain s (RuleBase.inOrder ⟨[r]⟩) none params (fun _ => 0) = .ok result ∧
    ∃ k ∈ result.conclusions, ∀ p, k.statement = p.toText →
      ¬ Derivable (Copied s.snapshot params) [r] p k.truth.confidence

theorem exceeds_of_reports {s : Store} {r : Rule} (he : r.enabled = true) {params : Params}
    {ks : List (String × Float)} (h : reports (chain s [r] none params fun _ => 0) = some ks)
    {e : String × Float} (hmem : e ∈ ks)
    (hnone : ∀ p, Derivable (Copied s.snapshot params) [r] p e.2 → p.toText ≠ e.1) :
    Exceeds s r params := by
  obtain ⟨result, hrun, rfl⟩ := exists_of_reports h
  obtain ⟨k, hk, rfl⟩ := List.mem_map.1 hmem
  rw [← RuleBase.inOrder_singleton he] at hrun
  exact ⟨result, hrun, k, hk, fun p htext hp => hnone p hp htext.symm⟩

theorem eq_of_copied_pair {params : Params} {t : Pattern} {c : Float}
    (h : Copied pair.snapshot params t c) :
    t = thing "a" ∨ t = thing "b" ∨ t = row [thing "a", thing "b"] := by
  obtain ⟨a, ha, ht, _⟩ := h
  have hids : ∀ a ∈ pair.snapshot.atoms, a.id = 1 ∨ a.id = 2 ∨ a.id = 3 := by decide +kernel
  rcases hids a ha with hid | hid | hid <;> rw [hid] at ht <;> cases ht
  · exact .inl rfl
  · exact .inr (.inl rfl)
  · exact .inr (.inr rfl)

theorem eq_of_copied_single {params : Params} {t : Pattern} {c : Float}
    (h : Copied single.snapshot params t c) : t = thing "a" ∨ t = row [thing "a"] := by
  obtain ⟨a, ha, ht, _⟩ := h
  have hids : ∀ a ∈ single.snapshot.atoms, a.id = 1 ∨ a.id = 2 := by decide +kernel
  rcases hids a ha with hid | hid <;> rw [hid] at ht <;> cases ht
  · exact .inl rfl
  · exact .inr rfl

/-- What a rule of one premise derives. -/
theorem of_derivable {fact : Pattern → Float → Prop} {premise conclusion : Pattern}
    {reliability : Float} {t : Pattern} {c : Float}
    (h : Derivable fact [ruleOf premise conclusion reliability] t c) :
    fact t c ∨ ∃ σ d, Derivable fact [ruleOf premise conclusion reliability] (premise.subst σ) d ∧
      t = conclusion.subst σ ∧ c = d * reliability := by
  cases h with
  | fact h => exact .inl h
  | @rule r hr _ σ _ cs hcs h =>
    obtain rfl := List.mem_singleton.1 hr
    obtain ⟨d, rfl⟩ := List.length_eq_one_iff.1 hcs
    exact .inr ⟨σ, d, h (premise, d) (List.mem_singleton_self _), rfl, rfl⟩

/-- Nothing derives the row the way it was. -/
theorem not_derivable_swap {params : Params} {t : Pattern} {c : Float}
    (h : Derivable (Copied pair.snapshot params) [swap] t c) :
    t.toText ≠ "(List (List (Concept \"a\") (Concept \"b\")))" := by
  rcases of_derivable h with hfact | ⟨σ, d, hd, rfl, _⟩
  · rcases eq_of_copied_pair hfact with rfl | rfl | rfl <;> decide
  · have hd : Derivable (Copied pair.snapshot params) [swap] (row [σ "$X", σ "$Y"]) d := hd
    show (row [row [σ "$Y", σ "$X"]]).toText ≠ _
    rcases of_derivable hd with hfact | ⟨τ, _, _, heq, _⟩
    · rcases eq_of_copied_pair hfact with heq | heq | heq
      · cases heq
      · cases heq
      · obtain ⟨hX, hY⟩ := List.cons.inj (Pattern.link.inj heq).2
        rw [hX, (List.cons.inj hY).1]
        decide
    · cases (List.cons.inj (Pattern.link.inj heq).2).2

/-- Nothing derives a row that belongs to a rule's own mark. -/
theorem not_derivable_mark {params : Params} {t : Pattern} {c : Float}
    (h : Derivable (Copied pair.snapshot params) [mark] t c) :
    t.toText ≠ "(List (List (List (Concept \"b\"))) (Variable \"$X\"))" := by
  rcases of_derivable h with hfact | ⟨σ, d, hd, rfl, _⟩
  · rcases eq_of_copied_pair hfact with rfl | rfl | rfl <;> decide
  · have hd : Derivable (Copied pair.snapshot params) [mark] (row [σ "$X", σ "$Y"]) d := hd
    show (row [row [σ "$Y"], .node (.node .variable) "$X"]).toText ≠ _
    rcases of_derivable hd with hfact | ⟨τ, _, _, heq, _⟩
    · rcases eq_of_copied_pair hfact with heq | heq | heq
      · cases heq
      · cases heq
      · obtain ⟨_, hY⟩ := List.cons.inj (Pattern.link.inj heq).2
        rw [(List.cons.inj hY).1]
        decide
    · obtain ⟨_, hY⟩ := List.cons.inj (Pattern.link.inj heq).2
      rw [(List.cons.inj hY).1]
      show (row [row [.node (.node .variable) "$X"], .node (.node .variable) "$X"]).toText ≠ _
      decide

theorem inUnit_certain {copy : Store} {t : Pattern} {c : Float} (h : Copied copy certain t c) :
    inUnit c = true := by
  obtain ⟨_, _, _, rfl⟩ := h
  exact inUnit_one

/-- Two rules in a row discount twice. -/
theorem not_derivable_wrap {t : Pattern} (h : Derivable (Copied single.snapshot certain) [wrap] t 0.8) :
    t.toText ≠ "(List (List (List (Concept \"a\"))))" := by
  have hchecked : ∀ r ∈ [wrap], r.Checked :=
    List.forall_mem_singleton.2 (Rule.checked_of_check (r := wrap) rfl).1
  rcases of_derivable h with hfact | ⟨σ, d, hd, rfl, hc⟩
  · rcases eq_of_copied_single hfact with rfl | rfl <;> decide
  · have hd : Derivable (Copied single.snapshot certain) [wrap] (row [σ "$X"]) d := hd
    show (row [row [σ "$X"]]).toText ≠ _
    rcases of_derivable hd with hfact | ⟨τ, e, he, _, rfl⟩
    · rcases eq_of_copied_single hfact with heq | heq
      · cases heq
      · rw [(List.cons.inj (Pattern.link.inj heq).2).1]
        decide
    · have hu : inUnit e = true := he.inUnit (fun _ _ => inUnit_certain) hchecked
      have hle : e ≤ 1.0 := ((Bool.and_eq_true ..).mp hu).2 |> of_decide_eq_true
      have h8 : inUnit 0.8 = true := by decide
      have hone : e * 0.8 ≤ 1.0 * 0.8 := mul_le_mul_of_inUnit hu inUnit_one h8 hle
      have htwo := mul_le_mul_of_inUnit (inUnit_mul hu h8).1 (inUnit_mul inUnit_one h8).1 h8 hone
      rw [← hc] at htwo
      exact absurd htwo (by decide)

end Rows

/-! ## Soundness -/

/-- Every conclusion of a run is founded on the copy of the premises, with exactly the confidence
that is reported. -/
theorem chain_founded {s : Store} (h : s.Reachable) (hp : s.Plain) {base : RuleBase}
    (hchecked : ∀ r ∈ base.rules, r.check = .ok r)
    (hpremises : ∀ r ∈ base.rules, ∀ p ∈ r.premises, p.WellKinded)
    (hconclusion : ∀ r ∈ base.rules, r.conclusion.Grammatical)
    (premises : Option (List AtomId)) (params : Params) (clock : Clock) {result : Result}
    (hrun : chain s base.inOrder premises params clock = .ok result) :
    ∀ k ∈ result.conclusions, ∃ p, k.statement = p.toText ∧
      Founded (scratch s premises) params base.rules (Reported result.conclusions) p
        k.truth.confidence := by
  have hrules : ∀ r ∈ base.inOrder, r ∈ base.rules ∧ r.enabled = true ∧ Written r := by
    intro r hr
    obtain ⟨hmem, he⟩ := RuleBase.mem_inOrder.1 hr
    exact ⟨hmem, he, (Rule.checked_of_check (hchecked r hmem)).1, hpremises r hmem,
      hconclusion r hmem⟩
  unfold chain at hrun
  obtain ⟨texts, _, hrun⟩ := bind_eq_ok hrun
  obtain ⟨⟨outcome, run⟩, hiterate, hrun⟩ := bind_eq_ok hrun
  cases hrun
  have hstart : Sound (scratch s premises) params base.rules (scratch s premises) [] :=
    sound_start (inv_scratch h.inv premises) (plain_scratch h.inv hp premises)
  exact (Sound.iterate hrules hstart hiterate).conclusions

open Rows in
/-- The second conclusion of a run over one row is founded on a part of the first one. -/
theorem chain_founded_swap : ∃ result,
    chain pair (RuleBase.inOrder ⟨[swap]⟩) none .default (fun _ => 0) = .ok result ∧
      result.conclusions.map (fun k => (k.statement, k.truth.confidence)) =
        [("(List (List (Concept \"b\") (Concept \"a\")))", 0.9 * 0.8),
          ("(List (List (Concept \"a\") (Concept \"b\")))", 0.9 * 0.8)] ∧
      ∀ k ∈ result.conclusions, ∃ p, k.statement = p.toText ∧
        Founded (scratch pair none) .default [swap] (Reported result.conclusions) p
          k.truth.confidence := by
  have hs : pair.Reachable := Store.Reachable.single _
  have hp : pair.Plain := plain_pair
  have hpremise : ∀ p ∈ swap.premises, p.WellKinded :=
    List.forall_mem_singleton.2 ⟨rfl, trivial, trivial, trivial⟩
  have hconclusion : swap.conclusion.Grammatical := by
    refine .link .list (List.forall_mem_singleton.2 (.link .list fun c hc => ?_))
    rcases List.mem_cons.1 hc with rfl | hc
    · exact .var "$Y"
    · rw [List.mem_singleton.1 hc]
      exact .var "$X"
  obtain ⟨result, hrun, hreports⟩ := exists_of_reports reports_swap
  rw [← RuleBase.inOrder_singleton (r := swap) rfl] at hrun
  exact ⟨result, hrun, hreports, chain_founded hs hp (List.forall_mem_singleton.2 rfl)
    (List.forall_mem_singleton.2 hpremise) (List.forall_mem_singleton.2 hconclusion) none .default
    (fun _ => 0) hrun⟩

open Rows in
/-- Without these parts nothing derives that conclusion; where the confidences of atoms do not
count, a run reports more than rules in a row derive; and a rule that names a variable node makes
it report what it does not derive at all. -/
theorem chain_exceeds_derivations :
    (pair.Reachable ∧ pair.Plain ∧ single.Reachable ∧ single.Plain ∧
      ∀ r ∈ [swap, wrap, mark], r.check = .ok r) ∧
    Exceeds pair swap .default ∧ Exceeds single wrap certain ∧ Exceeds pair mark twice := by
  have hpair : pair.Plain := plain_pair
  have hsingle : single.Plain := by
    unfold Store.Plain
    decide
  refine ⟨⟨Store.Reachable.single _, hpair, Store.Reachable.single _, hsingle, fun r hr => ?_⟩,
    ?_, ?_, ?_⟩
  · rcases List.mem_cons.1 hr with rfl | hr
    · rfl
    · rcases List.mem_cons.1 hr with rfl | hr
      · rfl
      · rw [List.mem_singleton.1 hr]
        rfl
  · exact exceeds_of_reports rfl reports_swap (List.mem_cons_of_mem _ (List.mem_singleton_self _))
      fun p => not_derivable_swap
  · exact exceeds_of_reports rfl reports_wrap (List.mem_cons_of_mem _ (List.mem_singleton_self _))
      fun p => not_derivable_wrap
  · exact exceeds_of_reports rfl reports_mark (List.mem_cons_of_mem _ (List.mem_singleton_self _))
      fun p => not_derivable_mark

end Credence.Forward
