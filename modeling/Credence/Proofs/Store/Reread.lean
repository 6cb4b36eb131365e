import Mathlib.Logic.Relation
import Credence.Proofs.Pattern.Ink
import Credence.Proofs.Store.Consistency
import Credence.Proofs.Store.Legible
/-!
# Atoms read back from their texts

The tree of an atom has a variable for every variable node that the atom is or is made
of, and no others. So an atom has a tree unless such a node is named by a bare mark,
which names no variable, and its text is read back as the same tree exactly if every
such node is read as a variable that a symbol spells. Nodes of the other kinds may have
any name, and links are no obstacle at any depth.
-/

namespace Credence

open Pattern

/-- The variable that a variable node of a name is read as. -/
def Pattern.variableNamed (name : String) : String := .ofList (marked name.toList)

theorem Pattern.ofVariable_name_iff {name : String} {p : Pattern} :
    ofVariable (.text name) = .ok p ↔
      2 ≤ (marked name.toList).length ∧ p = .var (variableNamed name) := by
  have hchars : Value.text name = .text (.ofList name.toList) := by rw [String.ofList_toList]
  rw [hchars]
  exact ofVariable_text_iff

/-- Only a bare mark is left without a character behind the mark. -/
theorem Pattern.two_le_length_marked_iff {name : String} (hname : name ≠ "") :
    2 ≤ (marked name.toList).length ↔ name ≠ "$" := by
  have hne : name.toList ≠ [] := fun h => hname (String.toList_eq_nil_iff.1 h)
  have hbare : name = "$" ↔ name.toList = ['$'] := String.toList_inj.symm
  rw [Ne, hbare]
  unfold marked
  cases hcs : name.toList with
  | nil => exact absurd hcs hne
  | cons c cs =>
    by_cases hc : c = '$'
    · subst hc
      cases cs <;> simp
    · simp [hc]

namespace Store

variable {s : Store} {id : AtomId} {name : String}

/-! ## What atoms are made of -/

/-- Whether an atom is another or below it. -/
def Within (s : Store) : AtomId → AtomId → Prop := Relation.ReflTransGen s.ChildOf

/-- Whether an atom is a variable node of a name or has one below it. -/
def HasVariable (s : Store) (id : AtomId) (name : String) : Prop :=
  ∃ a ∈ s.atoms, s.Within a.id id ∧ a.form = .node .variable name

theorem mem_outgoing_of_childOf (h : s.Inv) {a : Atom} (ha : a ∈ s.atoms) {ref : AtomId}
    (hchild : s.ChildOf ref a.id) : ref ∈ a.outgoing := by
  obtain ⟨a', ha', hid, href⟩ := hchild
  have heq := get?_eq_some h ha'
  rw [hid, get?_eq_some h ha] at heq
  cases heq
  exact href

theorem hasVariable_node_iff (h : s.Inv) {a : Atom} (ha : a ∈ s.atoms) {k : NodeKind}
    {name' : String} (hf : a.form = .node k name') :
    s.HasVariable a.id name ↔ k = .variable ∧ name' = name := by
  constructor
  · rintro ⟨v, hv, hwithin, hform⟩
    have hself : v.id = a.id := by
      rcases Relation.ReflTransGen.cases_tail hwithin with heq | ⟨ref, _, hchild⟩
      · exact heq.symm
      · have href := mem_outgoing_of_childOf h ha hchild
        unfold Atom.outgoing at href
        rw [hf] at href
        cases href
    have heq := get?_eq_some h hv
    rw [hself, get?_eq_some h ha] at heq
    cases heq
    rw [hf] at hform
    cases hform
    exact ⟨rfl, rfl⟩
  · rintro ⟨rfl, rfl⟩
    exact ⟨a, ha, .refl, hf⟩

theorem hasVariable_link_iff (h : s.Inv) {a : Atom} (ha : a ∈ s.atoms) {k : LinkKind}
    {out : List AtomId} (hf : a.form = .link k out) :
    s.HasVariable a.id name ↔ ∃ ref ∈ out, s.HasVariable ref name := by
  have hout : a.outgoing = out := by
    unfold Atom.outgoing
    rw [hf]
    rfl
  constructor
  · rintro ⟨v, hv, hwithin, hform⟩
    rcases Relation.ReflTransGen.cases_tail hwithin with heq | ⟨ref, hbelow, hchild⟩
    · have hsame := get?_eq_some h hv
      rw [← heq, get?_eq_some h ha] at hsame
      cases hsame
      rw [hf] at hform
      cases hform
    · exact ⟨ref, hout ▸ mem_outgoing_of_childOf h ha hchild, v, hv, hbelow, hform⟩
  · rintro ⟨ref, href, v, hv, hwithin, hform⟩
    exact ⟨v, hv, hwithin.tail ⟨a, ha, rfl, hout ▸ href⟩, hform⟩

/-- A store without variable nodes has none below any atom. -/
theorem Plain.not_hasVariable (hp : s.Plain) : ¬ s.HasVariable id name := by
  rintro ⟨a, ha, _, hf⟩
  exact hp.ne_variable ha hf rfl

/-! ## Trees -/

/-- A variable node is read as a variable and any other node as itself. -/
theorem patternOfNode_eq_ok_iff {k : NodeKind} {p : Pattern} :
    patternOfNode k name = .ok p ↔
      (k = .variable ∧ 2 ≤ (marked name.toList).length ∧ p = .var (variableNamed name)) ∨
        (k ≠ .variable ∧ p = .node (.node k) name) := by
  by_cases hk : k = .variable
  · subst hk
    simp only [ne_eq, not_true_eq_false, false_and, or_false, true_and]
    exact mapError_eq_ok_iff.trans ofVariable_name_iff
  · have hnode : patternOfNode k name = .ok (.node (.node k) name) := by
      unfold patternOfNode
      split
      · exact absurd rfl hk
      · rfl
    rw [hnode, Except.ok.injEq]
    simp [hk, eq_comm]

theorem name_ne_empty (h : s.Inv) (hv : s.HasVariable id name) : name ≠ "" := by
  obtain ⟨a, ha, _, hf⟩ := hv
  have hfits := h.formed.fits a ha
  rw [hf] at hfits
  exact String.isEmpty_eq_false_iff.1 hfits

/-- An atom has a tree, unless a bare mark names a variable node that it is or is made of. -/
theorem toPattern_cases (h : s.Inv) (hid : id ∈ s.ids) :
    ((∃ p, s.toPattern id = .ok p) ∧ ¬ s.HasVariable id "$") ∨
      (s.toPattern id = .error (.pattern .emptyName) ∧ s.HasVariable id "$") := by
  refine h.induct (P := fun id => ((∃ p, s.toPattern id = .ok p) ∧ ¬ s.HasVariable id "$") ∨
    (s.toPattern id = .error (.pattern .emptyName) ∧ s.HasVariable id "$"))
    (fun a ha k name hf => ?_) (fun a ha k out hf hout => ?_) hid
  · rw [toPattern_node h ha hf, hasVariable_node_iff h ha hf]
    by_cases hk : k = .variable
    · subst hk
      have hname : name ≠ "" := name_ne_empty h ((hasVariable_node_iff h ha hf).2 ⟨rfl, rfl⟩)
      by_cases hbare : name = "$"
      · subst hbare
        exact .inr ⟨rfl, rfl, rfl⟩
      · refine .inl ⟨⟨.var (variableNamed name), patternOfNode_eq_ok_iff.2 (.inl ?_)⟩,
          fun hv => hbare hv.2⟩
        exact ⟨rfl, (two_le_length_marked_iff hname).2 hbare, rfl⟩
    · exact .inl ⟨⟨_, patternOfNode_eq_ok_iff.2 (.inr ⟨hk, rfl⟩)⟩, fun hv => hk hv.1⟩
  · rw [toPattern_link h ha hf, hasVariable_link_iff h ha hf]
    by_cases hbare : ∃ ref ∈ out, s.HasVariable ref "$"
    · refine .inr ⟨?_, hbare⟩
      obtain ⟨ref, href, hv⟩ := hbare
      have herror := ((hout ref href).2.resolve_left fun hok => hok.2 hv).1
      rw [mapM_eq_error (fun ref href => (hout ref href).2.imp And.left And.left) href herror]
      rfl
    · refine .inl ⟨?_, hbare⟩
      obtain ⟨ps, hps⟩ := exists_mapM_ok fun ref href =>
        ((hout ref href).2.resolve_right fun herror => hbare ⟨ref, href, herror.2⟩).1
      exact ⟨.link (.link k) ps, by rw [hps]; rfl⟩

/-- The variables of a tree are those that the variable nodes of its atom are read as. -/
theorem mem_occurrences_toPattern (h : s.Inv) {p : Pattern} (hp : s.toPattern id = .ok p)
    {v : String} : v ∈ p.occurrences ↔ ∃ name, s.HasVariable id name ∧ v = variableNamed name := by
  refine h.induct (P := fun id => ∀ p, s.toPattern id = .ok p →
    (v ∈ p.occurrences ↔ ∃ name, s.HasVariable id name ∧ v = variableNamed name))
    (fun a ha k name hf p hp => ?_) (fun a ha k out hf hout p hp => ?_)
    (mem_ids_of_toPattern hp) p hp
  · rw [toPattern_node h ha hf] at hp
    have hnode : ∀ name', s.HasVariable a.id name' ↔ k = .variable ∧ name = name' :=
      fun _ => hasVariable_node_iff h ha hf
    simp only [hnode]
    rcases patternOfNode_eq_ok_iff.1 hp with ⟨rfl, _, rfl⟩ | ⟨hk, rfl⟩
    · simp [occurrences]
    · simp [occurrences, hk]
  · rw [toPattern_link h ha hf] at hp
    obtain ⟨ps, hps, rfl⟩ := map_eq_ok hp
    have hlink : ∀ name', s.HasVariable a.id name' ↔ ∃ ref ∈ out, s.HasVariable ref name' :=
      fun _ => hasVariable_link_iff h ha hf
    simp only [hlink]
    show v ∈ occurrencesList ps ↔ _
    rw [mem_occurrencesList]
    constructor
    · rintro ⟨p, hmem, hv⟩
      obtain ⟨ref, href, hread⟩ := exists_of_mem_forall₂ (forall₂_of_mapM hps) hmem
      obtain ⟨name, hname, heq⟩ := ((hout ref href).2 p hread).1 hv
      exact ⟨name, ⟨ref, href, hname⟩, heq⟩
    · rintro ⟨name, ⟨ref, href, hname⟩, heq⟩
      obtain ⟨p, hmem, hread⟩ := exists_of_mem_mapM hps href
      exact ⟨p, hmem, ((hout ref href).2 p hread).2 ⟨name, hname, heq⟩⟩

/-- A tree is well named exactly if the variables in it are. -/
theorem wellNamed_toPattern_iff (h : s.Inv) {p : Pattern} (hp : s.toPattern id = .ok p) :
    p.WellNamed ↔ ∀ v ∈ p.occurrences, IsVariableName v := by
  refine h.induct (P := fun id => ∀ p, s.toPattern id = .ok p →
    (p.WellNamed ↔ ∀ v ∈ p.occurrences, IsVariableName v))
    (fun a ha k name hf p hp => ?_) (fun a ha k out hf hout p hp => ?_)
    (mem_ids_of_toPattern hp) p hp
  · rw [toPattern_node h ha hf] at hp
    rcases patternOfNode_eq_ok_iff.1 hp with ⟨rfl, _, rfl⟩ | ⟨hk, rfl⟩
    · rw [wellNamed_var_iff]
      exact List.forall_mem_singleton.symm
    · exact ⟨fun _ => List.forall_mem_nil _, fun _ => .node hk name⟩
  · rw [toPattern_link h ha hf] at hp
    obtain ⟨ps, hps, rfl⟩ := map_eq_ok hp
    have hall : (∀ p ∈ ps, p.WellNamed) ↔ ∀ v ∈ occurrencesList ps, IsVariableName v := by
      have hread : ∀ p ∈ ps, p.WellNamed ↔ ∀ v ∈ p.occurrences, IsVariableName v := by
        intro p hmem
        obtain ⟨ref, href, hread⟩ := exists_of_mem_forall₂ (forall₂_of_mapM hps) hmem
        exact (hout ref href).2 p hread
      simp only [mem_occurrencesList]
      constructor
      · rintro hwell v ⟨p, hmem, hv⟩
        exact (hread p hmem).1 (hwell p hmem) v hv
      · exact fun hnames p hmem => (hread p hmem).2 fun v hv => hnames v ⟨p, hmem, hv⟩
    have hcount : k.accepts ps.length = true := by
      have hfits := h.formed.fits a ha
      rw [hf] at hfits
      rwa [← (forall₂_of_mapM hps).length_eq]
    refine Iff.trans ⟨fun hwell => ?_, fun hwell => .link hwell hcount⟩ hall
    cases hwell with
    | link hwell _ => exact hwell

/-! ## Texts -/

/-- In every reachable store an atom is rendered and read back exactly if every variable node that
it is or is made of is read as a variable that a symbol spells. It is rendered, whether or not it
is read back, unless such a node is named by a bare mark. -/
theorem toText_readsBack_iff (h : s.Reachable) (hid : id ∈ s.ids) :
    ((∃ p text, s.toPattern id = .ok p ∧ s.toText id = .ok text ∧ parse text = .ok p) ↔
      ∀ name, s.HasVariable id name → IsVariableName (variableNamed name)) ∧
    ((∃ p, s.toPattern id = .ok p) ↔ ¬ s.HasVariable id "$") ∧
    (s.toPattern id = .error (.pattern .emptyName) ↔ s.HasVariable id "$") := by
  have hnames : ∀ {p}, s.toPattern id = .ok p →
      (p.WellNamed ↔ ∀ name, s.HasVariable id name → IsVariableName (variableNamed name)) := by
    intro p hp
    rw [wellNamed_toPattern_iff h.inv hp]
    simp only [mem_occurrences_toPattern h.inv hp]
    exact ⟨fun hall name hv => hall _ ⟨name, hv, rfl⟩, fun hall v ⟨name, hv, heq⟩ =>
      heq ▸ hall name hv⟩
  rcases toPattern_cases h.inv hid with ⟨⟨p, hp⟩, hbare⟩ | ⟨herror, hbare⟩
  · have htext : s.toText id = .ok p.toText := by
      unfold toText
      rw [hp]
      rfl
    refine ⟨⟨?_, fun hall => ?_⟩, ⟨fun _ => hbare, fun _ => ⟨p, hp⟩⟩, ?_⟩
    · rintro ⟨q, text, hq, ht, hparse⟩
      rw [hp] at hq
      cases hq
      rw [htext] at ht
      cases ht
      exact (hnames hp).1 (parse_toText_iff.1 hparse)
    · exact ⟨p, p.toText, hp, htext, parse_toText_iff.2 ((hnames hp).2 hall)⟩
    · rw [hp]
      exact ⟨nofun, fun hv => absurd hv hbare⟩
  · rw [herror]
    refine ⟨⟨nofun, fun hall => ?_⟩, ⟨nofun, fun hv => absurd hbare hv⟩,
      ⟨fun _ => hbare, fun _ => rfl⟩⟩
    exact absurd (hall "$" hbare).2.1 (by decide)

/-- A variable node and a node with a quoted name, under a list. -/
def labelled : Store :=
  ((assert (.link (.link .list)
    [.node (.node .variable) "X", .node (.node .concept) "the \"cat\""]) none).run.run empty).2

theorem eq_of_hasVariable_labelled (h : labelled.HasVariable id name) : name = "X" := by
  obtain ⟨a, ha, _, hf⟩ := h
  have hforms : labelled.atoms.map Atom.form =
      [.node .variable "X", .node .concept "the \"cat\"", .link .list [1, 2]] := by decide +kernel
  have hmem := List.mem_map_of_mem (f := Atom.form) ha
  rw [hforms, hf] at hmem
  simpa using hmem

/-- A mark is put before the name of the variable node, quotes in other names are escaped. -/
theorem toText_readsBack_labelled : labelled.Reachable ∧ 3 ∈ labelled.ids ∧
    (∀ name, labelled.HasVariable 3 name → IsVariableName (variableNamed name)) ∧
    ∃ p text, labelled.toPattern 3 = .ok p ∧ labelled.toText 3 = .ok text ∧ parse text = .ok p := by
  have hs : labelled.Reachable := Reachable.single _
  have hid : 3 ∈ labelled.ids := by decide +kernel
  have hnames : ∀ name, labelled.HasVariable 3 name → IsVariableName (variableNamed name) := by
    intro name hname
    rw [eq_of_hasVariable_labelled hname]
    exact ⟨rfl, by decide, List.all_eq_true.1 rfl⟩
  exact ⟨hs, hid, hnames, (toText_readsBack_iff hs hid).1.2 hnames⟩

/-- A single variable node. -/
def variableNode (name : String) : Store :=
  ((add (.text "Variable") (.text name) [] .null).run.run empty).2

/-- A name with a blank is read as a variable whose text is no pattern, and a bare mark as none. -/
theorem not_toText_readsBack :
    ((variableNode "my var").Reachable ∧
      (variableNode "my var").toPattern 1 = .ok (.var "$my var") ∧
      (variableNode "my var").toText 1 = .ok "$my var" ∧ ∀ p, parse "$my var" ≠ .ok p) ∧
    ((variableNode "$").Reachable ∧ 1 ∈ (variableNode "$").ids ∧
      ∀ p, (variableNode "$").toPattern 1 ≠ .ok p) := by
  have hparse : (parse "$my var").toOption = none := by decide +kernel
  have hbare : ((variableNode "$").toPattern 1).toOption = none := by decide +kernel
  refine ⟨⟨Reachable.empty.add .., ?_, ?_, fun p hp => ?_⟩, Reachable.empty.add .., ?_,
    fun p hp => ?_⟩
  · exact ok_of_toOption (by decide +kernel)
  · exact ok_of_toOption (by decide +kernel)
  · rw [hp] at hparse
    cases hparse
  · decide +kernel
  · rw [hp] at hbare
    cases hbare

end Store

end Credence
