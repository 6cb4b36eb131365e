import Credence.Proofs.Pattern.Ink
import Credence.Proofs.Rule.Failure
import Credence.Rule.Base
/-!
# Saved rules

A rule that was read has a written form, with its patterns as their texts. That form
stands for the rule again exactly if these texts are read back, and so does the
document of a rule base: it may be refused or give other rules where a variable was
spelled as a node with a name that no symbol spells.
-/

namespace Credence

open Fields Pattern

/-! ## Written rules -/

namespace RuleSpec

/-- Whether a written rule fits the description of one. -/
structure WellFormed (s : RuleSpec) : Prop where
  name : s.name.isEmpty = false
  premises : s.premises ≠ []
  reliability : inUnit s.reliability = true

theorem name_of_reader {v : Value} {s : RuleSpec} (h : reader v = .ok s) :
    s.name.isEmpty = false := by
  obtain ⟨fields, -, hread⟩ := exists_of_reader h
  obtain ⟨_, _, hpriority, -, rfl⟩ := exists_of_seq hread
  obtain ⟨_, _, hdescription, -, rfl⟩ := exists_of_seq hpriority
  obtain ⟨_, _, hreliability, -, rfl⟩ := exists_of_seq hdescription
  obtain ⟨_, _, hconclusion, -, rfl⟩ := exists_of_seq hreliability
  obtain ⟨_, _, hpremises, -, rfl⟩ := exists_of_seq hconclusion
  obtain ⟨_, _, hmap, -, rfl⟩ := exists_of_seq hpremises
  obtain ⟨name, hname, rfl⟩ := exists_of_map hmap
  obtain ⟨_, v, -, hv⟩ := exists_of_required hname
  unfold Reader.name at hv
  split at hv
  · split at hv
    · cases hv
    · next hne =>
      cases hv
      exact Bool.eq_false_iff.2 hne
  · cases hv

/-- A written rule is read back from its record. -/
theorem WellFormed.reader_toValue {s : RuleSpec} (h : s.WellFormed) : reader s.toValue = .ok s := by
  have hname : Reader.name (.text s.name) = .ok s.name := if_neg (by simp [h.name])
  have hpremises : Reader.nonEmpty .text (.texts s.premises) = .ok s.premises :=
    Reader.guard_ok (Reader.list_texts _) (by simp [h.premises])
  exact reader_of_gives (((((((gives_required rfl hname).map RuleSpec.mk
    |>.seq (gives_required rfl hpremises))
    |>.seq (gives_required rfl rfl))
    |>.seq (gives_withDefault rfl (Reader.unit_float h.reliability)))
    |>.seq (gives_withDefault rfl (Reader.optional_text _)))
    |>.seq (gives_withDefault rfl rfl))
    |>.seq (gives_withDefault rfl rfl)) (by simp)

end RuleSpec

/-! ## Rules -/

namespace Rule

/-- A written rule with the patterns of a rule, written anew. -/
def rewritten (s : RuleSpec) (r : Rule) : RuleSpec :=
  { s with premises := r.premises.map Pattern.toText, conclusion := r.conclusion.toText }

/-- Whether the texts of a written rule spell the patterns of a rule. -/
structure Spells (s : RuleSpec) (r : Rule) : Prop where
  premises : List.Forall₂ (fun text p => parse text = .ok p) s.premises r.premises
  conclusion : parse s.conclusion = .ok r.conclusion

/-- A written rule stands for a rule that its texts spell, that has its other fields and that the
check lets pass. -/
theorem ofSpec_eq_ok_iff {s : RuleSpec} {r : Rule} :
    ofSpec s = .ok r ↔ Spells s r ∧
      r = ⟨.text s.name, r.premises, r.conclusion, .real s.reliability,
        .ofOption .text s.description, .int s.priority, s.enabled⟩ ∧ r.check = .ok r := by
  constructor
  · intro h
    obtain ⟨premises, hpremises, h⟩ := bind_eq_ok h
    obtain ⟨conclusion, hconclusion, h⟩ := bind_eq_ok h
    obtain ⟨-, rfl⟩ := checked_of_check h
    refine ⟨⟨?_, mapError_eq_ok_iff.1 hconclusion⟩, rfl, h⟩
    exact (mapM_eq_ok_iff.1 hpremises).imp fun _ _ => mapError_eq_ok_iff.1
  · rintro ⟨hspells, heq, hcheck⟩
    have hpremises : s.premises.mapM parsePattern = .ok r.premises :=
      mapM_eq_ok_iff.2 (hspells.premises.imp fun _ _ => mapError_eq_ok_iff.2)
    have hconclusion : parsePattern s.conclusion = .ok r.conclusion :=
      mapError_eq_ok_iff.2 hspells.conclusion
    unfold ofSpec
    rw [hpremises, hconclusion]
    show Rule.check _ = _
    rw [← heq]
    exact hcheck

section

variable {s : RuleSpec} {r : Rule}

theorem toRecord_eq (h : ofSpec s = .ok r) : r.toRecord = (rewritten s r).toValue := by
  obtain ⟨-, heq, -⟩ := ofSpec_eq_ok_iff.1 h
  rw [heq]
  rfl

theorem wellFormed_rewritten {v : Value} (hv : RuleSpec.reader v = .ok s) (h : ofSpec s = .ok r) :
    (rewritten s r).WellFormed := by
  obtain ⟨-, heq, hcheck⟩ := ofSpec_eq_ok_iff.1 h
  have hchecked := (checked_of_check hcheck).1
  have hunit := hchecked.inUnit_reliability
  rw [heq] at hunit
  have hname : s.name.isEmpty = false := RuleSpec.name_of_reader hv
  exact ⟨hname, fun hnil => hchecked.premises (List.map_eq_nil_iff.1 hnil), hunit⟩

theorem toSpec_eq {v : Value} (hv : RuleSpec.reader v = .ok s) (h : ofSpec s = .ok r) :
    r.toSpec = .ok (rewritten s r) := by
  unfold toSpec RuleSpec.ofRecord
  rw [toRecord_eq h, (wellFormed_rewritten hv h).reader_toValue]
  rfl

/-- The texts of a rule that was read spell its patterns exactly if symbols spell the variables of
its premises: its conclusion has no others. -/
theorem spells_rewritten_iff (h : ofSpec s = .ok r) :
    Spells (rewritten s r) r ↔ ∀ w ∈ occurrencesList r.premises, IsSymbol w := by
  obtain ⟨hspells, -, hcheck⟩ := ofSpec_eq_ok_iff.1 h
  have hbound := (checked_of_check hcheck).1.bound
  have hconclusion := parse_toText_iff_of_parse hspells.conclusion
  have hpremise : ∀ p ∈ r.premises, parse p.toText = .ok p ↔ ∀ w ∈ p.occurrences, IsSymbol w := by
    intro p hp
    obtain ⟨text, -, htext⟩ := exists_of_mem_forall₂ hspells.premises hp
    exact parse_toText_iff_of_parse htext
  constructor
  · intro hagain w hw
    obtain ⟨p, hp, hw⟩ := mem_occurrencesList.1 hw
    have hall := hagain.premises
    unfold rewritten at hall
    rw [List.forall₂_map_left_iff, List.forall₂_same] at hall
    exact (hpremise p hp).1 (hall p hp) w hw
  · intro hsymbols
    refine ⟨?_, hconclusion.2 fun w hw => hsymbols w (hbound w hw)⟩
    unfold rewritten
    rw [List.forall₂_map_left_iff, List.forall₂_same]
    exact fun p hp => (hpremise p hp).2 fun w hw => hsymbols w (mem_occurrencesList.2 ⟨p, hp, hw⟩)

theorem ofSpec_rewritten_iff (h : ofSpec s = .ok r) :
    ofSpec (rewritten s r) = .ok r ↔ ∀ w ∈ occurrencesList r.premises, IsSymbol w := by
  rw [← spells_rewritten_iff h, ofSpec_eq_ok_iff]
  obtain ⟨-, heq, hcheck⟩ := ofSpec_eq_ok_iff.1 h
  exact ⟨fun hagain => hagain.1, fun hspells => ⟨hspells, heq, hcheck⟩⟩

end

/-- A rule that was read has a written form, which stands for it again exactly if symbols spell the
variables of its premises. -/
theorem exists_toSpec {v : Value} {r : Rule} (h : ofValue v = .ok r) :
    ∃ s, r.toSpec = .ok s ∧
      (ofValue s.toValue = .ok r ↔ ∀ w ∈ occurrencesList r.premises, IsSymbol w) := by
  obtain ⟨s, hs, hr⟩ := bind_eq_ok h
  have hread := ok_of_fit hs
  refine ⟨rewritten s r, toSpec_eq hread hr, ?_⟩
  have hagain : fit "RuleSpec" RuleSpec.reader (rewritten s r).toValue = .ok (rewritten s r) :=
    mapError_eq_ok_iff.2 (wellFormed_rewritten hread hr).reader_toValue
  unfold ofValue
  rw [hagain]
  exact ofSpec_rewritten_iff hr

end Rule

/-! ## Rule bases -/

namespace RuleBase

/-- The documents of rules that were read give the same rules exactly if each of them does. -/
theorem mapM_ofValue_iff {vs : List Value} {rules : List Rule}
    (h : List.Forall₂ (fun v r => Rule.ofValue v = .ok r) vs rules) :
    ∃ ss, rules.mapM Rule.toSpec = .ok ss ∧
      ((ss.map RuleSpec.toValue).mapM Rule.ofValue = .ok rules ↔
        ∀ r ∈ rules, ∀ w ∈ occurrencesList r.premises, IsSymbol w) := by
  induction h with
  | nil => exact ⟨[], rfl, fun _ => List.forall_mem_nil _, fun _ => rfl⟩
  | @cons v r vs rules hr _ ih =>
    obtain ⟨s, hs, hagain⟩ := Rule.exists_toSpec hr
    obtain ⟨ss, hss, hrest⟩ := ih
    refine ⟨s :: ss, ?_, ?_⟩
    · rw [List.mapM_cons, hs, hss]
      rfl
    · rw [mapM_eq_ok_iff] at hrest ⊢
      rw [List.map_cons, List.forall₂_cons, List.forall_mem_cons, hagain, hrest]

/-- The document of a base that was read gives the same rules, field for field and in order,
exactly if symbols spell the variables of all premises. -/
theorem loads_saved {vs : List Value} {base : RuleBase} (h : ofValues vs = .ok base) :
    ∃ v, base.toValue = .ok v ∧ (ofValue v = .ok base ↔
      ∀ r ∈ base.rules, ∀ w ∈ occurrencesList r.premises, IsSymbol w) := by
  obtain ⟨rules, hrules, rfl⟩ := map_eq_ok h
  obtain ⟨ss, hss, hagain⟩ := mapM_ofValue_iff (mapM_eq_ok_iff.1 hrules)
  refine ⟨.record [("rules", .list (ss.map RuleSpec.toValue))], ?_, ?_⟩
  · unfold toValue
    rw [hss]
    rfl
  · rw [← hagain]
    show ((ss.map RuleSpec.toValue).mapM Rule.ofValue).map RuleBase.mk = _ ↔ _
    cases (ss.map RuleSpec.toValue).mapM Rule.ofValue with
    | error e => exact ⟨nofun, nofun⟩
    | ok rules' => exact ⟨fun h => by cases h; rfl, fun h => by cases h; rfl⟩

/-! ## Saved bases -/

/-- Documents of two rules, the second of them switched off and with a variable spelled as a
node. -/
def plainDocuments : List Value :=
  [.record [("name", .text "transitivity"),
      ("premises", .texts ["(Inheritance $X $Y)", "(Inheritance $Y $Z)"]),
      ("conclusion", .text "(Inheritance $X $Z)"), ("reliability", .float 0.9)],
    .record [("name", .text "turn"), ("premises", .texts ["(Similarity (Variable \"X\") $Y)"]),
      ("conclusion", .text "(Similarity $Y $X)"), ("priority", .int 5), ("enabled", .bool false)]]

/-- The document of one rule with one premise and a plain conclusion. -/
def singleDocument (premise : String) : List Value :=
  [.record [("name", .text "r"), ("premises", .texts [premise]),
    ("conclusion", .text "(Concept \"a\")")]]

theorem loads_saved_plain :
    ∃ base v, ofValues plainDocuments = .ok base ∧ base.rules.map Rule.enabled = [true, false] ∧
      base.toValue = .ok v ∧ ofValue v = .ok base := by
  have hread : (ofValues plainDocuments).toOption.map (fun base =>
      (base.rules.map Rule.enabled, base.rules.map fun r => occurrencesList r.premises)) =
      some ([true, false], [["$X", "$Y", "$Y", "$Z"], ["$X", "$Y"]]) := by decide +kernel
  obtain ⟨base, hbase, hparts⟩ := exists_of_map_toOption hread
  obtain ⟨henabled, hnames⟩ := Prod.mk.inj hparts
  obtain ⟨v, hv, hagain⟩ := loads_saved hbase
  have hsymbols : ∀ ws ∈ [["$X", "$Y", "$Y", "$Z"], ["$X", "$Y"]], ∀ w ∈ ws, IsSymbol w := by
    decide +kernel
  refine ⟨base, v, hbase, henabled, hv, hagain.2 fun r hr => hsymbols _ ?_⟩
  rw [← hnames]
  exact List.mem_map_of_mem hr

/-- A base with a variable `my var` has a document that is refused, and the document of one with a
variable `x $y` gives a base whose rule has two variables in its place. -/
theorem not_loads_saved :
    (∃ base v, ofValues (singleDocument "(Variable \"my var\")") = .ok base ∧
      base.toValue = .ok v ∧ ¬ ∃ again, ofValue v = .ok again) ∧
    ∃ base v again, ofValues (singleDocument "(List (Variable \"x $y\"))") = .ok base ∧
      base.toValue = .ok v ∧ ofValue v = .ok again ∧ again ≠ base := by
  constructor
  · have hread : (ofValues (singleDocument "(Variable \"my var\")")).toOption.map
        (fun base => base.toValue.toOption.map fun v => (ofValue v).isOk) = some (some false) := by
      decide +kernel
    obtain ⟨base, hbase, hsaved⟩ := exists_of_map_toOption hread
    obtain ⟨v, hv, hrefused⟩ := exists_of_map_toOption hsaved
    refine ⟨base, v, hbase, hv, ?_⟩
    rintro ⟨again, hagain⟩
    rw [hagain] at hrefused
    cases hrefused
  · have hread : (ofValues (singleDocument "(List (Variable \"x $y\"))")).toOption.map
        (fun base => (base.rules.map Rule.premises, (base.toValue.bind ofValue).toOption.map
          fun again => again.rules.map Rule.premises)) =
        some ([[.link (.link .list) [.var "$x $y"]]],
          some [[.link (.link .list) [.var "$x", .var "$y"]]]) := by decide +kernel
    obtain ⟨base, hbase, hparts⟩ := exists_of_map_toOption hread
    obtain ⟨hone, hsaved⟩ := Prod.mk.inj hparts
    obtain ⟨again, hreloaded, htwo⟩ := exists_of_map_toOption hsaved
    obtain ⟨v, hv, hagain⟩ := bind_eq_ok hreloaded
    refine ⟨base, v, again, hbase, hv, hagain, ?_⟩
    rintro rfl
    rw [hone] at htwo
    exact absurd htwo (by decide)

end RuleBase

end Credence
