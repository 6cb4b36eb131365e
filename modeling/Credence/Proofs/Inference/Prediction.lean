import Credence.Proofs.Inference.Assignment
import Credence.Proofs.Inference.Suggestion
import Credence.Proofs.Store.Growth
import Credence.Proofs.Store.Lookup
import Credence.Proofs.Store.Reachable
import Credence.Proofs.Table
/-!
# Predictions

A prediction is a source link carried over to the target, child by child: what a child
corresponds to takes its place, and a predicate that corresponds to nothing keeps it. Each
statement is predicted once, and no stored link is over the same atoms.

A stored link may still be over other atoms with the same trees, and then the prediction
reads like this link.
-/

namespace Credence.Analogy

open Pattern Store

variable {s : Store} {params : Params} {map : Table AtomId (AtomId × Float)} {ms : List Mapped}
  {c d : AtomId}

/-! ## What corresponds -/

/-- Whether two atoms are nodes of one kind. -/
def paired (s : Store) (p : AtomId × AtomId) : Bool :=
  match (s.get? p.1).map Atom.form, (s.get? p.2).map Atom.form with
  | some (.node k _), some (.node l _) => k = l
  | _, _ => false

/-- The nodes of a kind in the same slots of two links of a length. -/
def slots (s : Store) (m : Mapped) : List (AtomId × AtomId) :=
  match m.source.form, m.target.form with
  | .link _ out, .link _ out' =>
    if out.length ≠ out'.length then [] else (out.zip out').filter (paired s)
  | _, _ => []

/-- What source nodes are set beside, with the similarities of the mapped pairs that do so: what they
are mapped to, and then what stands in the same slots of mapped links. -/
def sides (s : Store) (ms : List Mapped) : List (AtomId × AtomId × Float) :=
  (ms.filter fun m => m.source.form.isNode).map (fun m => (m.source.id, m.target.id, m.similarity)) ++
    ms.flatMap fun m => (slots s m).map fun p => (p.1, p.2, m.similarity)

/-- What a source node corresponds to: the first that it is set beside. -/
def partner? (s : Store) (ms : List Mapped) (c : AtomId) : Option (AtomId × Float) :=
  Table.find c (sides s ms)

/-- The slots of a mapped pair are added to what corresponds, for nodes without a partner. -/
theorem foldl_slots (t : Table AtomId (AtomId × Float)) (m : Mapped) :
    (match m.source.form, m.target.form with
    | .link _ out, .link _ out' =>
      if out.length ≠ out'.length then t
      else (out.zip out').foldl (fun t p =>
        match (s.get? p.1).map Atom.form, (s.get? p.2).map Atom.form with
        | some (.node k _), some (.node l _) =>
          if k = l && !t.contains p.1 then t.insert p.1 (p.2, m.similarity) else t
        | _, _ => t) t
    | _, _ => t) =
      ((slots s m).map fun p => (p.1, p.2, m.similarity)).foldl
        (fun t e => if t.contains e.1 then t else t.insert e.1 e.2) t := by
  unfold slots
  split
  · split
    · rfl
    · rw [List.foldl_map, List.foldl_filter]
      refine List.foldl_ext _ _ _ fun t p _ => ?_
      unfold paired
      split
      · next k _ l _ _ _ =>
        by_cases hkl : k = l <;> cases t.contains p.1 <;> simp [hkl]
      · rfl
  · rfl

theorem get?_correspondences (hms : (ms.map fun m => m.source.id).Nodup) (c : AtomId) :
    (correspondences s ms).get? c = partner? s ms c := by
  have hslots : correspondences s ms = (ms.flatMap fun m =>
      (slots s m).map fun p => (p.1, p.2, m.similarity)).foldl
        (fun t e => if t.contains e.1 then t else t.insert e.1 e.2)
        (ms.foldl (fun t m => if m.source.form.isNode then
          t.insert m.source.id (m.target.id, m.similarity) else t) .empty) := by
    rw [List.foldl_flatMap]
    exact List.foldl_ext _ _ _ fun t m _ => foldl_slots t m
  unfold partner? sides
  rw [hslots, Table.get?_foldl_setDefault, Table.find_append]
  have hnodes : (([] : List AtomId) ++ (ms.filter fun m => m.source.form.isNode).map
      fun m => m.source.id).Nodup := hms.sublist (List.filter_sublist.map _)
  have hentries : (ms.foldl (fun t m => if m.source.form.isNode then
      t.insert m.source.id (m.target.id, m.similarity) else t)
        (Table.empty : Table AtomId (AtomId × Float))).entries =
      [] ++ (ms.filter fun m => m.source.form.isNode).map
        fun m => (m.source.id, m.target.id, m.similarity) := by
    rw [← List.foldl_filter]
    exact Table.entries_foldl_insert _ hnodes
  unfold Table.get?
  rw [hentries]
  rfl

/-- Whether an atom is a node. -/
def IsNode (s : Store) (id : AtomId) : Prop :=
  ∃ k name, (s.get? id).map Atom.form = some (.node k name)

theorem IsNode.mem_ids (h : s.Inv) (hid : IsNode s c) : c ∈ s.ids := by
  obtain ⟨k, name, hform⟩ := hid
  obtain ⟨a, ha, -⟩ := Option.map_eq_some_iff.1 hform
  obtain ⟨hmem, rfl⟩ := (get?_some_iff h.formed.ascending).1 ha
  exact mem_ids.2 ⟨a, hmem, rfl⟩

theorem isNode_of_slots {m : Mapped} (h : (c, d) ∈ slots s m) : IsNode s c ∧ IsNode s d := by
  unfold slots at h
  split at h
  · split at h
    · cases h
    · have hpaired := (List.mem_filter.1 h).2
      unfold paired at hpaired
      split at hpaired
      · next k name l name' hc hd => exact ⟨⟨k, name, hc⟩, ⟨l, name', hd⟩⟩
      · cases hpaired
  · cases h

/-- What has a partner is mapped to it or stands in a slot of a mapped link with it. -/
theorem exists_of_partner {x : Float} (h : partner? s ms c = some (d, x)) :
    (∃ m ∈ ms, m.source.form.isNode = true ∧ m.source.id = c ∧ m.target.id = d) ∨
      IsNode s c ∧ IsNode s d := by
  rcases List.mem_append.1 (Table.mem_of_find h) with h | h
  · obtain ⟨m, hm, heq⟩ := List.mem_map.1 h
    cases heq
    obtain ⟨hm, hnode⟩ := List.mem_filter.1 hm
    exact .inl ⟨m, hm, hnode, rfl, rfl⟩
  · obtain ⟨m, -, h⟩ := List.mem_flatMap.1 h
    obtain ⟨q, hq, heq⟩ := List.mem_map.1 h
    cases heq
    exact .inr (isNode_of_slots hq)

theorem similarity_of_isNode {a b : Atom} (ha : a.form.isNode = true) (hb : b.form.isNode = false) :
    similarity s a b = 0.0 := by
  cases hform : a.form with
  | link k out =>
    rw [hform] at ha
    cases ha
  | node k name =>
    cases hform' : b.form with
    | node l name' =>
      rw [hform'] at hb
      cases hb
    | link l out =>
      unfold similarity
      rw [hform, hform']

theorem isNode_iff {a : Atom} (h : s.Inv) (ha : a ∈ s.atoms) :
    IsNode s a.id ↔ a.form.isNode = true := by
  unfold IsNode
  rw [get?_eq_some h ha, Option.map_some]
  cases a.form with
  | node k name => exact ⟨fun _ => rfl, fun _ => ⟨k, name, rfl⟩⟩
  | link k out => exact ⟨by simp, by simp [Form.isNode]⟩

/-- Partners are nodes, but that a floor of zero lets nodes be mapped to links. -/
theorem isNode_of_partner (h : s.Inv) (hms : ∀ m ∈ ms, m.source ∈ s.atoms ∧ m.target ∈ s.atoms)
    {floor : Float} (hsimilar : ∀ m ∈ ms, m.similarity = similarity s m.source m.target ∧
      floor ≤ m.similarity) {x : Float} (hpartner : partner? s ms c = some (d, x)) :
    IsNode s c ∧ (IsNode s d ∨ floor ≤ 0.0) := by
  rcases exists_of_partner hpartner with ⟨m, hm, hnode, rfl, rfl⟩ | ⟨hc, hd⟩
  · refine ⟨(isNode_iff h (hms m hm).1).2 hnode, ?_⟩
    obtain ⟨hsim, hfloor⟩ := hsimilar m hm
    cases htarget : m.target.form.isNode with
    | true => exact .inl ((isNode_iff h (hms m hm).2).2 htarget)
    | false =>
      rw [hsim, similarity_of_isNode hnode htarget] at hfloor
      exact .inr hfloor
  · exact ⟨hc, .inl hd⟩

/-! ## What predictions are made of -/

/-- Whether one atom is carried over to another: to its partner, or a predicate without one to
itself. -/
def Carried (s : Store) (ms : List Mapped) (c d : AtomId) : Prop :=
  (∃ x, partner? s ms c = some (d, x)) ∨
    partner? s ms c = none ∧ d = c ∧ ∃ name, (s.get? c).map Atom.form = some (.node .predicate name)

theorem carried_of_carry (hmap : ∀ c, map.get? c = partner? s ms c) {out children : List AtomId}
    {xs : List Float} (h : carry s map out = some (children, xs)) :
    List.Forall₂ (Carried s ms) out children ∧
      (xs ≠ [] → ∃ c ∈ out, (partner? s ms c).isSome = true) := by
  induction out generalizing children xs with
  | nil =>
    cases h
    exact ⟨.nil, fun hne => absurd rfl hne⟩
  | cons ref refs ih =>
    unfold carry at h
    rw [hmap] at h
    split at h
    · next d x hpartner =>
      obtain ⟨r, hr, heq⟩ := Option.map_eq_some_iff.1 h
      cases heq
      exact ⟨.cons (.inl ⟨x, hpartner⟩) (ih hr).1,
        fun _ => ⟨ref, List.mem_cons_self .., by rw [hpartner]; rfl⟩⟩
    · next hpartner =>
      split at h
      · next name hform =>
        obtain ⟨r, hr, heq⟩ := Option.map_eq_some_iff.1 h
        cases heq
        obtain ⟨hcarried, hsome⟩ := ih hr
        refine ⟨.cons (.inr ⟨hpartner, rfl, name, hform⟩) hcarried, fun hne => ?_⟩
        obtain ⟨c, hc, hcsome⟩ := hsome hne
        exact ⟨c, List.mem_cons_of_mem _ hc, hcsome⟩
      · cases h

/-- What holds at the start and is kept by every prediction holds of the predictions. -/
theorem project_induct {P : List Prediction → Prop} {as : List Atom} {done ps : List Prediction}
    (h : project s params map as done = .ok ps) (hdone : P done)
    (hstep : ∀ a ∈ as, ∀ g, suggestion? s map a = some g → ∀ p : Prediction,
      g.text s = .ok p.statement → s.toText a.id = .ok p.basedOn → ∀ done, P done →
      p.statement ∉ done.map Prediction.statement → done.length < params.maxResults →
      P (done ++ [p])) : P ps := by
  induction as generalizing done with
  | nil =>
    cases h
    exact hdone
  | cons a as ih =>
    obtain ⟨ha, has⟩ := List.forall_mem_cons.1 hstep
    rw [project_cons] at h
    cases hg : suggestion? s map a with
    | none =>
      rw [hg] at h
      exact ih h hdone has
    | some g =>
      rw [hg] at h
      obtain ⟨t, ht, h⟩ := bind_eq_ok h
      split at h
      · exact ih h hdone has
      · next hany =>
        split at h
        · cases h
          exact hdone
        · next hfull =>
          obtain ⟨basedOn, hbasedOn, h⟩ := bind_eq_ok h
          exact ih h (ha g hg _ ht hbasedOn done hdone (fun hmem => hany (any_statement_iff.2 hmem))
            (Nat.lt_of_not_le hfull)) has

/-- How a prediction comes about: a source link is carried over child by child, at least one of which
has a partner, to a link that is not stored. -/
structure Projects (s : Store) (sources : List AtomId) (ms : List Mapped) (p : Prediction)
    (k : LinkKind) (out children : List AtomId) : Prop where
  source : ∃ a ∈ s.atoms, a.id ∈ sources ∧ a.form = .link k out ∧ s.toText a.id = .ok p.basedOn
  carried : List.Forall₂ (Carried s ms) out children
  partnered : ∃ c ∈ out, (partner? s ms c).isSome = true
  stored : ∀ d ∈ children, d ∈ s.ids
  statement : p.statement = (s.treeOfForm (.link k children)).toText
  absent : ∀ b ∈ s.atoms, b.form ≠ .link k children

section

variable (h : s.Inv) (hp : s.Plain)
include h

theorem mem_ids_of_partner (hms : ∀ m ∈ ms, m.target ∈ s.atoms) {x : Float}
    (hpartner : partner? s ms c = some (d, x)) : d ∈ s.ids := by
  rcases exists_of_partner hpartner with ⟨m, hm, -, -, rfl⟩ | ⟨-, hd⟩
  · exact mem_ids.2 ⟨m.target, hms m hm, rfl⟩
  · exact hd.mem_ids h

theorem mem_ids_of_carried (hms : ∀ m ∈ ms, m.target ∈ s.atoms) {out children : List AtomId}
    (hout : ∀ c ∈ out, c ∈ s.ids) (hcarried : List.Forall₂ (Carried s ms) out children) :
    ∀ d ∈ children, d ∈ s.ids := by
  induction hcarried with
  | nil => exact nofun
  | cons hcd _ ih =>
    obtain ⟨hc, hout⟩ := List.forall_mem_cons.1 hout
    refine List.forall_mem_cons.2 ⟨?_, ih hout⟩
    rcases hcd with ⟨x, hpartner⟩ | ⟨-, rfl, -⟩
    · exact mem_ids_of_partner h hms hpartner
    · exact hc

/-- What a source link suggests: the link carried over child by child, which is not stored. -/
theorem carried_of_suggestion (hmap : ∀ c, map.get? c = partner? s ms c)
    (hms : ∀ m ∈ ms, m.target ∈ s.atoms) {a : Atom} (ha : a ∈ s.atoms) {g : Suggestion}
    (hg : suggestion? s map a = some g) :
    ∃ out, a.form = .link g.kind out ∧ List.Forall₂ (Carried s ms) out g.children ∧
      (∃ c ∈ out, (partner? s ms c).isSome = true) ∧ (∀ d ∈ g.children, d ∈ s.ids) ∧
      ∀ b ∈ s.atoms, b.form ≠ .link g.kind g.children := by
  unfold suggestion? at hg
  split at hg
  · cases hg
  · next k out hform =>
    split at hg
    · cases hg
    · next children xs hcarry =>
      obtain ⟨hcarried, hpartnered⟩ := carried_of_carry hmap hcarry
      split at hg
      · cases hg
      · next hnew =>
        obtain ⟨hxs, hfind⟩ : xs ≠ [] ∧ s.findLink k children = none := by simpa using hnew
        cases hg
        exact ⟨out, hform, hcarried, hpartnered hxs,
          mem_ids_of_carried h hms (fun c hc => (older_of_link h ha hform hc).2) hcarried,
          ne_form_of_findLink h hfind⟩

include hp

theorem exists_toTexts {ids : List AtomId} (hids : ∀ id ∈ ids, id ∈ s.ids) :
    ∃ texts, s.toTexts ids = .ok texts :=
  exists_mapM_ok fun id hid => ⟨_, toText_eq_treeOf h hp (hids id hid)⟩

theorem text_eq {g : Suggestion} (hchildren : ∀ d ∈ g.children, d ∈ s.ids) :
    g.text s = .ok (s.treeOfForm (.link g.kind g.children)).toText := by
  unfold Suggestion.text
  rw [mapM_ok fun d hd => toPattern_eq_treeOf h hp (hchildren d hd)]
  rfl

/-- A prediction reads like the links of its kind that are over atoms with the same trees. -/
theorem Projects.toText_iff {sources : List AtomId} {p : Prediction} {k : LinkKind}
    {out children : List AtomId} (hproj : Projects s sources ms p k out children) {b : Atom}
    (hb : b ∈ s.atoms) : s.toText b.id = .ok p.statement ↔
      ∃ out', b.form = .link k out' ∧ out'.map s.treeOf = children.map s.treeOf := by
  have hground : (s.treeOfForm (.link k children)).isGround = true := by
    refine isGround_iff.2 fun v hv => ?_
    obtain ⟨c, hc, hv⟩ := mem_occurrencesList.1 hv
    obtain ⟨d, hd, rfl⟩ := List.mem_map.1 hc
    exact isGround_iff.1 (isGround_treeOf h hp (hproj.stored d hd)) v hv
  rw [hproj.statement, toText_eq_iff h hp hground (mem_ids.2 ⟨b, hb, rfl⟩),
    treeOf_eq_form h hp hb]
  cases b.form with
  | node l name => exact ⟨nofun, by simp⟩
  | link l out' =>
    unfold treeOfForm
    simp

/-- Where atoms are told apart by their trees, a prediction reads like no stored atom. -/
theorem Projects.toText_ne {sources : List AtomId} {p : Prediction} {k : LinkKind}
    {out children : List AtomId} (hproj : Projects s sources ms p k out children)
    (hdistinct : s.Distinct) {b : Atom} (hb : b ∈ s.atoms) : s.toText b.id ≠ .ok p.statement := by
  intro htext
  obtain ⟨out', hform, htrees⟩ := (hproj.toText_iff h hp hb).1 htext
  have hsame := hdistinct.eq_of_map h hp (fun c hc => (older_of_link h hb hform hc).2)
    hproj.stored htrees
  exact hproj.absent b hb (hsame ▸ hform)

/-! ## What an answer predicts -/

theorem exists_mappedValue {m : Mapped} (hsource : m.source ∈ s.atoms) (htarget : m.target ∈ s.atoms) :
    ∃ v, mappedValue s m = .ok v := by
  have helements : ∃ mapping, elements s m = .ok mapping := by
    unfold elements
    split
    · exact ⟨_, rfl⟩
    · exact ⟨_, rfl⟩
    · next k out hform =>
      obtain ⟨ps, hps⟩ : ∃ ps, ((out.zip m.target.form.outgoing).mapM fun p => do
          let a ← s.toText p.1
          let b ← s.toText p.2
          return (a, Value.text b)) = .ok ps := by
        refine exists_mapM_ok fun p hmem => ?_
        obtain ⟨hp₁, hp₂⟩ := List.of_mem_zip hmem
        rw [toText_eq_treeOf h hp (older_of_link h hsource hform hp₁).2,
          toText_eq_treeOf h hp (h.formed.older _ htarget _ hp₂).2]
        exact ⟨_, rfl⟩
      rw [hps]
      exact ⟨_, rfl⟩
  obtain ⟨mapping, hmapping⟩ := helements
  unfold mappedValue
  rw [toText_eq_treeOf h hp (mem_ids.2 ⟨_, hsource, rfl⟩), toText_eq_treeOf h hp (mem_ids.2 ⟨_, htarget, rfl⟩),
    hmapping]
  exact ⟨_, rfl⟩

theorem exists_project (params : Params) (hmap : ∀ c, map.get? c = partner? s ms c)
    (hms : ∀ m ∈ ms, m.target ∈ s.atoms) {as : List Atom} (has : ∀ a ∈ as, a ∈ s.atoms)
    (done : List Prediction) : ∃ ps, project s params map as done = .ok ps := by
  induction as generalizing done with
  | nil => exact ⟨done, rfl⟩
  | cons a as ih =>
    obtain ⟨ha, has⟩ := List.forall_mem_cons.1 has
    rw [project_cons]
    cases hg : suggestion? s map a with
    | none => exact ih has done
    | some g =>
      obtain ⟨-, -, -, -, hstored, -⟩ := carried_of_suggestion h hmap hms ha hg
      dsimp only
      rw [text_eq h hp hstored, toText_eq_treeOf h hp (mem_ids.2 ⟨a, ha, rfl⟩)]
      dsimp only [bind, Except.bind]
      split
      · exact ih has done
      · split
        · exact ⟨done, rfl⟩
        · exact ih has _

/-- What is predicted: each statement once, no more than there may be results, each one a source
link carried over. -/
theorem projects_of_project (hmap : ∀ c, map.get? c = partner? s ms c)
    (hms : ∀ m ∈ ms, m.target ∈ s.atoms) {as : List Atom} (has : ∀ a ∈ as, a ∈ s.atoms)
    {ps : List Prediction} (hps : project s params map as [] = .ok ps) :
    (ps.map Prediction.statement).Nodup ∧ ps.length ≤ params.maxResults ∧
      ∀ p ∈ ps, ∃ k out children, Projects s (as.map Atom.id) ms p k out children := by
  refine project_induct (P := fun ps => (ps.map Prediction.statement).Nodup ∧
    ps.length ≤ params.maxResults ∧
      ∀ p ∈ ps, ∃ k out children, Projects s (as.map Atom.id) ms p k out children) hps
    ⟨.nil, Nat.zero_le _, nofun⟩ ?_
  rintro a ha g hg p htext hbasedOn done ⟨hnodup, hlen, hdone⟩ hnew hfew
  refine ⟨?_, ?_, fun q hq => ?_⟩
  · rw [List.map_append, List.map_singleton]
    exact List.nodup_append.2 ⟨hnodup, List.pairwise_singleton .., fun u hu v hv heq =>
      hnew (by rwa [← List.mem_singleton.1 hv, ← heq])⟩
  · rw [List.length_append, List.length_singleton]
    exact hfew
  · rcases List.mem_append.1 hq with hq | hq
    · exact hdone q hq
    · rw [List.mem_singleton.1 hq]
      obtain ⟨out, hform, hcarried, hpartnered, hstored, habsent⟩ :=
        carried_of_suggestion h hmap hms (has a ha) hg
      rw [text_eq h hp hstored] at htext
      exact ⟨g.kind, out, g.children, ⟨a, has a ha, List.mem_map_of_mem ha, hform, hbasedOn⟩,
        hcarried, hpartnered, hstored, (Except.ok.inj htext).symm, habsent⟩

/-- Domains are read, so an answer is given if the mapping and the predictions are. -/
theorem exists_reason {source target : List Value} {ids ids' : List AtomId}
    (hsource : s.domain source = .ok ids) (htarget : s.domain target = .ok ids') {floor : Float}
    {analogies : List Value} {ps : List Prediction}
    (hanalogies : (mapping s params floor (ids.filterMap s.get?) (ids'.filterMap s.get?)).1.mapM
      (mappedValue s) = .ok analogies)
    (hps : project s params (correspondences s
      (mapping s params floor (ids.filterMap s.get?) (ids'.filterMap s.get?)).1)
        (ids.filterMap s.get?) [] = .ok ps) :
    ∃ r, reason s ids ids' params floor = .ok r ∧ r.analogies = analogies ∧ r.predictions = ps := by
  obtain ⟨texts, htexts⟩ := exists_toTexts h hp fun id hid =>
    contains_iff.1 (contains_of_domain hsource hid)
  obtain ⟨texts', htexts'⟩ := exists_toTexts h hp fun id hid =>
    contains_iff.1 (contains_of_domain htarget hid)
  rw [reason_eq, htexts, htexts']
  dsimp only [bind, Except.bind]
  rw [answer_eq, hanalogies]
  dsimp only [bind, Except.bind]
  rw [hps]
  exact ⟨_, rfl, rfl, rfl⟩

end

/-- Predictions are given once each, no more than there may be results, and carry source links over
to links that are not stored, by the mapping that is reported, whose pairs are stored atoms; partners
are nodes, but that a floor of zero lets links in. A prediction reads like a stored link exactly if
this link is over other atoms with the same trees, so that it is news where atoms are told apart by
their trees. -/
theorem reason_predicts {s : Store} (hs : s.Reachable) (hp : s.Plain) {source target : List Value}
    {ids ids' : List AtomId} (hsource : s.domain source = .ok ids)
    (htarget : s.domain target = .ok ids') (params : Params) (floor : Float) :
    ∃ r ms, reason s ids ids' params floor = .ok r ∧ ms.mapM (mappedValue s) = .ok r.analogies ∧
      (∀ m ∈ ms, s.get? m.source.id = some m.source ∧ s.get? m.target.id = some m.target) ∧
      (r.predictions.map Prediction.statement).Nodup ∧
      r.predictions.length ≤ params.maxResults ∧
      (∀ c d x, partner? s ms c = some (d, x) → IsNode s c ∧ (IsNode s d ∨ floor ≤ 0.0)) ∧
      (∀ p ∈ r.predictions, ∃ k out children, Projects s ids ms p k out children ∧
        ∀ b ∈ s.atoms, s.toText b.id = .ok p.statement ↔
          ∃ out', b.form = .link k out' ∧ out'.map s.treeOf = children.map s.treeOf) ∧
      (s.Distinct → ∀ p ∈ r.predictions, ∀ b ∈ s.atoms, s.toText b.id ≠ .ok p.statement) := by
  have h := hs.inv
  have hatoms : ∀ {ids : List AtomId}, ∀ a ∈ ids.filterMap s.get?, a ∈ s.atoms := fun _ ha =>
    ((get?_some_iff h.formed.ascending).1 (get?_of_mem_filterMap ha)).1
  -- The mapping is one to one, and of stored atoms.
  have hstable := stable_mapping params floor
    (by rw [map_id_of_domain hsource]; exact nodup_of_domain hsource)
    (by rw [map_id_of_domain htarget]; exact nodup_of_domain htarget)
    (fun a ha => ha.elim get?_of_mem_filterMap get?_of_mem_filterMap) (fun _ => (rfl : true = true))
  have hms : ∀ m ∈ (mapping s params floor (ids.filterMap s.get?) (ids'.filterMap s.get?)).1,
      m.source ∈ s.atoms ∧ m.target ∈ s.atoms := fun m hm =>
    (hstable.stored m hm).imp (fun hget => ((get?_some_iff h.formed.ascending).1 hget).1)
      fun hget => ((get?_some_iff h.formed.ascending).1 hget).1
  have hmap := get?_correspondences (s := s) hstable.sources
  obtain ⟨analogies, hanalogies⟩ := exists_mapM_ok (f := mappedValue s) fun m hm =>
    exists_mappedValue h hp (hms m hm).1 (hms m hm).2
  obtain ⟨ps, hps⟩ := exists_project h hp params hmap (fun m hm => (hms m hm).2) hatoms []
  obtain ⟨hunique, hlen, hproj⟩ :=
    projects_of_project h hp hmap (fun m hm => (hms m hm).2) hatoms hps
  rw [map_id_of_domain hsource] at hproj
  obtain ⟨r, hr, rfl, rfl⟩ := exists_reason h hp hsource htarget hanalogies hps
  refine ⟨r, _, hr, hanalogies, hstable.stored, hunique, hlen, fun c d x => ?_, fun p hmem => ?_,
    fun hdistinct p hmem b hb => ?_⟩
  · exact isNode_of_partner h hms fun m hm => hstable.similar m hm
  · obtain ⟨k, out, children, hprojects⟩ := hproj p hmem
    exact ⟨k, out, children, hprojects, fun b hb => hprojects.toText_iff h hp hb⟩
  · obtain ⟨k, out, children, hprojects⟩ := hproj p hmem
    exact hprojects.toText_ne h hp hdistinct hb

/-! ### A relation carried over -/

namespace Related

/-- Two things, a predicate, and an evaluation of the predicate for the first thing. -/
def store : Store :=
  let first := ((add (.text "ConceptNode") (.text "a") [] .null).run.run empty).2
  let second := ((add (.text "ConceptNode") (.text "b") [] .null).run.run first).2
  let third := ((add (.text "PredicateNode") (.text "p") [] .null).run.run second).2
  ((add (.text "EvaluationLink") .null [.int 3, .int 1] .null).run.run third).2

theorem distinct_store : store.Distinct := by
  have hall : ∀ i ∈ store.ids, ∀ j ∈ store.ids,
      (store.toPattern i).toOption = (store.toPattern j).toOption → i = j := by decide +kernel
  exact fun i hi j hj hij => hall i hi j hj (congrArg Except.toOption hij)

end Related

open Related in
theorem reason_predicts_related :
    store.Reachable ∧ store.Plain ∧ store.domain [.int 1, .int 4] = .ok [1, 4] ∧
      store.domain [.int 2] = .ok [2] ∧ ∃ r, reason store [1, 4] [2] .default 0.5 = .ok r ∧
        r.predictions.map Prediction.statement =
          ["(Evaluation (Predicate \"p\") (Concept \"b\"))"] ∧
        ∀ p ∈ r.predictions, ∀ b ∈ store.atoms, store.toText b.id ≠ .ok p.statement := by
  have hs : store.Reachable := (((Reachable.empty.add ..).add ..).add ..).add ..
  have hp : ∀ a ∈ store.atoms, a.kind ≠ .node .variable := by decide +kernel
  have hsource : store.domain [.int 1, .int 4] = .ok [1, 4] := ok_of_toOption (by decide +kernel)
  have htarget : store.domain [.int 2] = .ok [2] := ok_of_toOption (by decide +kernel)
  have hrun : (reason store [1, 4] [2] .default 0.5).toOption.map
      (fun r => r.predictions.map Prediction.statement) =
        some ["(Evaluation (Predicate \"p\") (Concept \"b\"))"] := by decide +kernel
  obtain ⟨r, hr, hpredictions⟩ := exists_of_map_toOption hrun
  obtain ⟨r', ms, hr', -, -, -, -, -, -, hnews⟩ := reason_predicts hs hp hsource htarget .default 0.5
  cases hr.symm.trans hr'
  exact ⟨hs, hp, hsource, htarget, r, hr, hpredictions, hnews distinct_store⟩

/-! ### Two things of one name -/

namespace Twins

/-- Three things, the last two of one name, and rows that hold the first and the last. -/
def store : Store :=
  let first := ((add (.text "ConceptNode") (.text "a") [] .null).run.run empty).2
  let second := ((add (.text "ConceptNode") (.text "b") [] .null).run.run first).2
  let third := ((add (.text "ConceptNode") (.text "b") [] .null).run.run second).2
  let fourth := ((add (.text "ListLink") .null [.int 1] .null).run.run third).2
  ((add (.text "ListLink") .null [.int 3] .null).run.run fourth).2

end Twins

open Twins in
/-- The row of the first thing carried over to the second one is predicted, though a stored row reads
the same. -/
theorem not_reason_predicts :
    store.Reachable ∧ store.Plain ∧ store.domain [.int 1, .int 4] = .ok [1, 4] ∧
      store.domain [.int 2] = .ok [2] ∧ ∃ r, reason store [1, 4] [2] .default 0.5 = .ok r ∧
        ∃ p ∈ r.predictions, ∃ b ∈ store.atoms, b.form = .link .list [3] ∧
          store.toText b.id = .ok p.statement := by
  have hp : ∀ a ∈ store.atoms, a.kind ≠ .node .variable := by decide +kernel
  have hrun : (reason store [1, 4] [2] .default 0.5).toOption.map
      (fun r => r.predictions.map Prediction.statement) = some ["(List (Concept \"b\"))"] := by
    decide +kernel
  have hstored : ∃ b ∈ store.atoms, b.form = .link .list [3] ∧
      (store.toText b.id).toOption = some "(List (Concept \"b\"))" := by decide +kernel
  obtain ⟨r, hr, hpredictions⟩ := exists_of_map_toOption hrun
  obtain ⟨b, hb, hform, htext⟩ := hstored
  obtain ⟨p, hmem, hstatement⟩ : ∃ p ∈ r.predictions, p.statement = "(List (Concept \"b\"))" :=
    List.mem_map.1 (by rw [hpredictions]; exact List.mem_singleton_self _)
  exact ⟨((((Reachable.empty.add ..).add ..).add ..).add ..).add .., hp,
    ok_of_toOption (by decide +kernel), ok_of_toOption (by decide +kernel), r, hr, p, hmem, b, hb,
    hform, by rw [hstatement]; exact ok_of_toOption htext⟩

end Credence.Analogy
