import Credence.Document.Schema
import Credence.Proofs.Failure
import Credence.Truth
/-!
# Documents that cannot overflow

A document that gives no value either does not fit or names a quantity that is too
large. Only a duration can be too large, so a reader that is put together without the
one for durations finds misfits only.

A record is read where every field is, and none is left over.
-/

namespace Credence

variable {α β : Type}

/-- Whether a defect is a misfit. -/
def Defect.IsMisfit : Defect → Prop
  | misfit _ => True
  | overflow => False

theorem Defect.IsMisfit.under {d : Defect} (h : d.IsMisfit) (s : Step) : (d.under s).IsMisfit := by
  cases d with
  | misfit issues => trivial
  | overflow => exact h

theorem Defect.IsMisfit.both {d d' : Defect} (h : d.IsMisfit) (h' : d'.IsMisfit) :
    (d.both d').IsMisfit := by
  cases d with
  | overflow => exact h
  | misfit issues =>
    cases d' with
    | overflow => exact h'
    | misfit issues' => trivial

/-- Whether a document was read, or does not fit. -/
def Fits (x : Checked α) : Prop := FailsIn Defect.IsMisfit x

theorem fits_ok (a : α) : Fits (.ok a) := failsIn_ok a

theorem fits_misfit (issues : List Issue) : Fits (.error (.misfit issues) : Checked α) :=
  failsIn_error trivial

namespace Reader

theorem fits_fail (f : Fault) : Fits (fail f : Checked α) := fits_misfit _

/-! ## Plain documents -/

theorem fits_any (v : Value) : Fits (any v) := fits_ok v

theorem fits_text (v : Value) : Fits (text v) := by
  unfold text
  split
  · exact fits_ok _
  · exact fits_fail _

theorem fits_name (v : Value) : Fits (name v) := by
  unfold name
  repeat' split
  all_goals first | exact fits_ok _ | exact fits_fail _

theorem fits_mapping (v : Value) : Fits (mapping v) := by
  unfold mapping
  split
  · exact fits_ok _
  · exact fits_fail _

theorem fits_int (v : Value) : Fits (int v) := by
  unfold int
  repeat' split
  all_goals first | exact fits_ok _ | exact fits_fail _

theorem fits_float (v : Value) : Fits (float v) := by
  unfold float
  repeat' split
  all_goals first | exact fits_ok _ | exact fits_fail _

theorem fits_bool (v : Value) : Fits (bool v) := by
  unfold bool
  repeat' split
  all_goals first | exact fits_ok _ | exact fits_fail _

/-! ## Readers made of others -/

theorem fits_guard {r : Reader α} {v : Value} (h : Fits (r v)) (f : Fault) (test : α → Bool) :
    Fits (guard r f test v) := by
  refine h.bind fun a _ => ?_
  split
  · exact fits_ok a
  · exact fits_fail f

theorem fits_optional {r : Reader α} {v : Value} (h : Fits (r v)) : Fits (optional r v) := by
  unfold optional
  split
  · exact fits_ok none
  · exact h.map some

theorem fits_items {r : Reader α} {vs : List Value} (h : ∀ v ∈ vs, Fits (r v)) (i : Nat) :
    Fits (items r i vs) := by
  induction vs generalizing i with
  | nil => exact fits_ok []
  | cons v vs ih =>
    obtain ⟨hv, hvs⟩ := List.forall_mem_cons.1 h
    have hhead := hv.mapError fun d hd => Defect.IsMisfit.under hd (.item i)
    have hrest := ih hvs (i + 1)
    unfold items
    split
    · exact fits_ok _
    · next hd => exact failsIn_error (hrest _ hd)
    · next hd _ => exact failsIn_error (hhead _ hd)
    · next hd hd' => exact failsIn_error ((hhead _ hd).both (hrest _ hd'))

theorem fits_list {r : Reader α} {v : Value} (h : ∀ item ∈ v.elements, Fits (r item)) :
    Fits (list r v) := by
  cases v with
  | list vs => exact fits_items h 0
  | _ => exact fits_fail _

theorem fits_unit (v : Value) : Fits (unit v) := fits_guard (fits_guard (fits_float v) _ _) _ _

theorem fits_atLeast (low : Nat) (v : Value) : Fits (atLeast low v) :=
  (fits_guard (fits_int v) _ _).bind fun _ _ => fits_ok _

/-! ## What is read -/

theorem guard_ok {r : Reader α} {f : Fault} {test : α → Bool} {v : Value} {a : α}
    (h : r v = .ok a) (ha : test a = true) : guard r f test v = .ok a := by
  unfold guard
  rw [h]
  exact if_pos ha

theorem items_text (ss : List String) (i : Nat) : items text i (ss.map .text) = .ok ss := by
  induction ss generalizing i with
  | nil => rfl
  | cons s ss ih =>
    rw [List.map_cons]
    unfold items
    rw [ih (i + 1)]
    rfl

theorem list_texts (ss : List String) : list text (.texts ss) = .ok ss := items_text ss 0

theorem unit_float {x : Float} (h : inUnit x = true) : unit (.float x) = .ok x := by
  unfold inUnit at h
  obtain ⟨hlow, hhigh⟩ := Bool.and_eq_true_iff.1 h
  exact guard_ok (guard_ok rfl hhigh) hlow

theorem optional_text (s : Option String) : optional text (.ofOption .text s) = .ok s := by
  cases s with
  | none => rfl
  | some s => rfl

end Reader

namespace Fields

open Reader

variable {fields : List (String × Value)}

/-- Whether fields of a record were read, or do not fit. -/
def Fits (fs : Fields α) (fields : List (String × Value)) : Prop := Credence.Fits (fs.read fields).2

theorem Fits.map {fs : Fields α} (h : fs.Fits fields) (f : α → β) : (f <$> fs).Fits fields :=
  FailsIn.map h f

theorem Fits.seq {ff : Fields (α → β)} {fa : Fields α} (hf : ff.Fits fields)
    (ha : fa.Fits fields) : (ff <*> fa).Fits fields := by
  unfold Fields.Fits
  simp only [Seq.seq]
  split
  · exact fits_ok _
  · next hd => exact failsIn_error (ha _ hd)
  · next hd _ => exact failsIn_error (hf _ hd)
  · next hd hd' => exact failsIn_error ((hf _ hd).both (ha _ hd'))

theorem fits_withDefault {names : List String} {a : α} {r : Reader α}
    (h : ∀ n v, present names fields = some (n, v) → Credence.Fits (r v)) :
    (withDefault names a r).Fits fields := by
  unfold Fields.Fits withDefault
  dsimp only
  split
  · exact fits_ok a
  · next n v hv => exact (h n v hv).mapError fun d hd => hd.under _

theorem fits_required {names : List String} {r : Reader α}
    (h : ∀ n v, present names fields = some (n, v) → Credence.Fits (r v)) :
    (required names r).Fits fields := by
  unfold Fields.Fits required
  dsimp only
  split
  · exact fits_misfit _
  · next n v hv => exact (h n v hv).mapError fun d hd => hd.under _

theorem fits_reader {fs : Fields α} {v : Value}
    (h : ∀ fields, v = .record fields → fs.Fits fields) : Credence.Fits (reader fs v) := by
  unfold reader
  split
  · next fields =>
    have hread := h fields rfl
    unfold Fields.Fits at hread
    dsimp only
    split
    · split
      · exact fits_ok _
      · exact fits_misfit _
    · next d hd =>
      rw [hd] at hread
      exact failsIn_error ((hread d rfl).both trivial)
  · exact fits_fail _

/-! ## Fields that were read -/

theorem exists_of_map {fs : Fields α} {f : α → β} {b : β} (h : ((f <$> fs).read fields).2 = .ok b) :
    ∃ a, (fs.read fields).2 = .ok a ∧ f a = b :=
  map_eq_ok h

theorem exists_of_seq {ff : Fields (α → β)} {fa : Fields α} {b : β}
    (h : ((ff <*> fa).read fields).2 = .ok b) :
    ∃ f a, (ff.read fields).2 = .ok f ∧ (fa.read fields).2 = .ok a ∧ f a = b := by
  simp only [Seq.seq] at h
  split at h
  · next hf ha =>
    cases h
    exact ⟨_, _, hf, ha, rfl⟩
  all_goals cases h

theorem exists_of_required {names : List String} {r : Reader α} {a : α}
    (h : ((required names r).read fields).2 = .ok a) :
    ∃ n v, present names fields = some (n, v) ∧ r v = .ok a := by
  unfold required at h
  dsimp only at h
  split at h
  · cases h
  · next n v hv => exact ⟨n, v, hv, mapError_eq_ok_iff.1 h⟩

theorem exists_of_reader {fs : Fields α} {v : Value} {a : α} (h : reader fs v = .ok a) :
    ∃ fields, v = .record fields ∧ (fs.read fields).2 = .ok a := by
  unfold reader at h
  split at h
  · next fields =>
    dsimp only at h
    split at h
    · next hread =>
      split at h
      · cases h
        exact ⟨fields, rfl, hread⟩
      · cases h
    · cases h
  · cases h

/-! ## Fields that are read -/

/-- Whether fields of a record give a value, and which ones are used for it. -/
def Gives (fs : Fields α) (fields : List (String × Value)) (used : List String) (a : α) : Prop :=
  fs.read fields = (used, .ok a)

theorem Gives.map {fs : Fields α} {used : List String} {a : α} (h : fs.Gives fields used a)
    (f : α → β) : (f <$> fs).Gives fields used (f a) := by
  unfold Gives at h ⊢
  simp only [Functor.map, h]
  rfl

theorem Gives.seq {ff : Fields (α → β)} {fa : Fields α} {used used' : List String} {f : α → β}
    {a : α} (hf : ff.Gives fields used f) (ha : fa.Gives fields used' a) :
    (ff <*> fa).Gives fields (used ++ used') (f a) := by
  unfold Gives at *
  simp only [Seq.seq, hf, ha]

theorem gives_required {names : List String} {n : String} {v : Value} {r : Reader α} {a : α}
    (hv : present names fields = some (n, v)) (h : r v = .ok a) :
    (required names r).Gives fields [n] a := by
  unfold Gives required
  simp only [hv, h]
  rfl

theorem gives_withDefault {names : List String} {n : String} {v : Value} {b : α} {r : Reader α}
    {a : α} (hv : present names fields = some (n, v)) (h : r v = .ok a) :
    (withDefault names b r).Gives fields [n] a := by
  unfold Gives withDefault
  simp only [hv, h]
  rfl

theorem reader_of_gives {fs : Fields α} {used : List String} {a : α} (h : fs.Gives fields used a)
    (hall : ∀ f ∈ fields, f.1 ∈ used) : reader fs (.record fields) = .ok a := by
  have hunknown : fields.filter (fun f => !used.contains f.1) = [] :=
    List.filter_eq_nil_iff.2 fun f hf => by simpa using hall f hf
  unfold Gives at h
  unfold reader
  simp only [h, hunknown]
  rfl

end Fields

end Credence
