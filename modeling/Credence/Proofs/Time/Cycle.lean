import Credence.Proofs.Time.Colour
import Mathlib.Logic.Relation
/-!
# The search for a cycle decides whether there is one

Labels that turn black have only black successors, so every way on from them ends. Where
the search finds no cycle all labels turn black, and from none of them a way along the
edges leads back; where it finds one, that is such a way.
-/

namespace Credence.Precedence

open Relation

variable {edges : List Edge} {m m' : Marks} {l : String} {pending : List String}

/-- Whether an edge leads from a label to another. -/
def Leads (edges : List Edge) (l l' : String) : Prop := (l, l') ∈ edges

/-- Whether every way along the edges from a label ends. -/
def Ends (edges : List Edge) (l : String) : Prop := Acc (Function.swap (Leads edges)) l

theorem ends_of_successors (h : ∀ l', Leads edges l l' → Ends edges l') : Ends edges l :=
  .intro l h

/-- A label whose ways all end is on no cycle. -/
theorem Ends.not_returns (h : Ends edges l) : ¬ TransGen (Leads edges) l l := by
  unfold Ends at h
  induction h with
  | intro l _ ih =>
    intro hloop
    -- The way can be entered one edge later, and comes back there as well.
    obtain ⟨l', hfirst, hrest⟩ := TransGen.head'_iff.1 hloop
    refine ih l' hfirst ?_
    rcases reflTransGen_iff_eq_or_transGen.1 hrest with rfl | hback
    · exact hloop
    · exact hback.tail hfirst

/-! ## Black labels -/

/-- If all ways from black labels end, and all ways from a label but by the successors that are
left, then all ways from black labels end after the visit, and the label is one of them. -/
theorem Sweeps.ends {r : Except (List String) Marks} (h : Sweeps edges m l pending r)
    (hblack : ∀ x, m.colour x = .black → Ends edges x)
    (htried : ∀ x, Leads edges l x → x ∈ pending ∨ Ends edges x) (hr : r = .ok m') :
    m'.colour l = .black ∧ ∀ x, m'.colour x = .black → Ends edges x := by
  induction h generalizing m' with
  | @leaves m l =>
    cases hr
    have hl : Ends edges l := ends_of_successors fun x hx =>
      (htried x hx).resolve_left List.not_mem_nil
    refine ⟨by simp [Marks.leave], fun x hx => ?_⟩
    by_cases hxl : x = l
    · exact hxl ▸ hl
    · exact hblack x (by simpa [Marks.leave, hxl] using hx)
  | closes => cases hr
  | passes hnext _ ih =>
    refine ih hblack (fun x hx => ?_) hr
    rcases htried x hx with hmem | hends
    · rcases List.mem_cons.1 hmem with rfl | hmem
      · exact .inr (hblack _ hnext)
      · exact .inl hmem
    · exact .inr hends
  | finds => cases hr
  | @returns m m₁ l next rest r hwhite _ _ ih ihrest =>
    have henter : ∀ x, (m.enter next).colour x = .black → Ends edges x := by
      intro x hx
      by_cases hxn : x = next
      · simp [Marks.enter, hxn] at hx
      · exact hblack x (by simpa [Marks.enter, hxn] using hx)
    obtain ⟨hnext, hblack₁⟩ := ih henter (fun x hx => .inl (mem_successors.2 hx)) rfl
    refine ihrest hblack₁ (fun x hx => ?_) hr
    rcases htried x hx with hmem | hends
    · rcases List.mem_cons.1 hmem with rfl | hmem
      · exact .inr (hblack₁ _ hnext)
      · exact .inl hmem
    · exact .inr hends

/-- After a visit the grey labels are those that were grey before, but for the label itself. -/
theorem Sweeps.grey {r : Except (List String) Marks} (h : Sweeps edges m l pending r)
    (hr : r = .ok m') {x : String} (hx : m'.colour x = .grey) : m.colour x = .grey ∧ x ≠ l := by
  induction h generalizing m' with
  | @leaves m l =>
    cases hr
    by_cases hxl : x = l
    · simp [Marks.leave, hxl] at hx
    · exact ⟨by simpa [Marks.leave, hxl] using hx, hxl⟩
  | closes => cases hr
  | passes _ _ ih => exact ih hr hx
  | finds => cases hr
  | @returns m m₁ l next rest r _ _ _ ih ihrest =>
    obtain ⟨hgrey, hne⟩ := ihrest hr hx
    obtain ⟨henter, hnext⟩ := ih rfl hgrey
    exact ⟨by simpa [Marks.enter, hnext] using henter, hne⟩

/-- Where visits from labels find no cycle, all ways from these labels end. -/
theorem Searches.ends {ls : List String} {r : Option (List String)} (h : Searches edges m ls r)
    (hgrey : ∀ x, m.colour x ≠ .grey) (hblack : ∀ x, m.colour x = .black → Ends edges x)
    (hr : r = none) : ∀ x ∈ ls, Ends edges x := by
  induction h with
  | stops => exact List.forall_mem_nil _
  | @passes m l ls r hseen _ ih =>
    refine List.forall_mem_cons.2 ⟨hblack l ?_, ih hgrey hblack hr⟩
    cases hcolour : m.colour l with
    | white => exact absurd hcolour hseen
    | grey => exact absurd hcolour (hgrey l)
    | black => rfl
  | finds => cases hr
  | @returns m m₁ l ls r hwhite hvisit _ ih =>
    have hold : ∀ x c, (m.enter l).colour x = c → x ≠ l → m.colour x = c := by
      intro x c hx hxl
      simpa [Marks.enter, hxl] using hx
    obtain ⟨hl, hblack₁⟩ := hvisit.ends (fun x hx => hblack x (hold x _ hx fun hxl => by
      simp [Marks.enter, hxl] at hx)) (fun x hx => .inl (mem_successors.2 hx)) rfl
    refine List.forall_mem_cons.2 ⟨hblack₁ l hl, ih (fun x hx => ?_) hblack₁ hr⟩
    obtain ⟨hentered, hne⟩ := hvisit.grey rfl hx
    exact hgrey x (hold x _ hentered hne)

/-! ## The result -/

/-- Where no cycle is found, every way along the edges ends. -/
theorem ends_of_cycle?_eq_none (h : cycle? edges = none) (l : String) : Ends edges l := by
  have hrun : Searches edges .fresh (keys edges []) none := (searches_iff edges []).2 h.symm
  by_cases hl : l ∈ edges.map Prod.fst
  · refine hrun.ends (by simp [Marks.fresh]) (by simp [Marks.fresh]) rfl l ?_
    exact Text.mem_sorted.2 ((mem_distinct l _).2 hl)
  · exact ends_of_successors fun l' hl' => absurd (List.mem_map.2 ⟨(l, l'), hl', rfl⟩) hl

/-- A cycle leads from its first label back to it. -/
theorem IsCycle.returns {c : List String} (h : IsCycle edges c) :
    ∃ l, TransGen (Leads edges) l l := by
  obtain ⟨l, l', ls, rfl⟩ : ∃ l l' ls, c = l :: l' :: ls := by
    match c, h.long with
    | l :: l' :: ls, _ => exact ⟨l, l', ls, rfl⟩
  have hlast : l ∈ l' :: ls := by
    have hclosed := h.closed
    rw [List.getLast?_cons_cons, List.head?_cons] at hclosed
    exact List.mem_of_getLast? hclosed.symm
  have hways : (l :: l' :: ls).IsChain (TransGen (Leads edges)) := h.chain.imp fun _ _ => .single
  exact ⟨l, hways.rel_cons hlast⟩

/-- The search by colours ends on every graph, with labels without successors or not, and has one
result. This is no cycle exactly if none of the ways along the edges leads back to where it began,
and otherwise it is a cycle. -/
theorem searches_decides (edges : List Edge) (bare : List String) :
    (∀ r, Searches edges .fresh (keys edges bare) r ↔ r = cycle? edges) ∧
      (cycle? edges = none ↔ ¬ ∃ l, TransGen (Leads edges) l l) ∧
      ∀ c, cycle? edges = some c → IsCycle edges c := by
  refine ⟨fun r => searches_iff edges bare, ⟨fun hnone => ?_, fun hno => ?_⟩, fun c =>
    isCycle_of_cycle?⟩
  · rintro ⟨l, hl⟩
    exact (ends_of_cycle?_eq_none hnone l).not_returns hl
  · cases hc : cycle? edges with
    | none => rfl
    | some c => exact absurd (isCycle_of_cycle? hc).returns hno

/-- Two labels that come before each other, behind one that comes before both. -/
example : cycle? [("a", "b"), ("a", "c"), ("c", "b"), ("b", "c")] = some ["b", "c", "b"] := by
  cbv

end Credence.Precedence
