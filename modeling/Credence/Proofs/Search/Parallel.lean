import Credence.Proofs.Search.Mapping
/-!
# Searches in parallel

Two searches run in parallel if they act on related states and give related answers,
one for one. Then they have their first answers together, and so for searches that are
put together from parallel ones in the same way.

What the first answer of a search is can be told from its parts.
-/

namespace Credence.Search

variable {σ ε α β γ δ : Type}

/-! ## The first answer -/

theorem next_act (f : σ → σ) (rest : σ → Search σ ε α) (s : σ) :
    (act f rest).next s = (rest (f s)).next (f s) := rfl

theorem next_append (x : Search σ ε α) (rest : Unit → Search σ ε α) (s : σ) :
    (append x rest).next s =
      match x.next s with
      | (.ok none, s) => (rest ()).next s
      | out => out := by
  induction x generalizing s with
  | done => rfl
  | fail e => rfl
  | yield a next ih => rfl
  | act f next ih => exact ih (f s) (f s)

/-- Two searches in a row have no answer if neither has one. -/
theorem next_append_none {x : Search σ ε α} {rest : Unit → Search σ ε α} {s s₂ : σ}
    (h : (append x rest).next s = (.ok none, s₂)) :
    ∃ s₁, x.next s = (.ok none, s₁) ∧ (rest ()).next s₁ = (.ok none, s₂) := by
  rw [next_append] at h
  rcases hx : x.next s with ⟨e | (_ | a), s₁⟩
  · rw [hx] at h
    cases h
  · rw [hx] at h
    exact ⟨s₁, rfl, h⟩
  · rw [hx] at h
    cases h

/-- If nothing is found for any answer, then nothing for the first one. -/
theorem next_bind_none {x : Search σ ε α} {f : α → Search σ ε β} {s s₁ s₂ : σ} {a : α}
    (hx : x.next s = (.ok (some a), s₁)) (h : (bind x f).next s = (.ok none, s₂)) :
    ∃ s', (f a).next s₁ = (.ok none, s') := by
  induction x generalizing s with
  | done => cases hx
  | fail e => cases hx
  | yield b rest ih =>
    cases hx
    obtain ⟨s', hfirst, _⟩ := next_append_none h
    exact ⟨s', hfirst⟩
  | act g rest ih => exact ih (g s) hx h

theorem next_map_none {f : α → β} {x : Search σ ε α} {s s₁ : σ}
    (h : (map f x).next s = (.ok none, s₁)) : x.next s = (.ok none, s₁) := by
  rw [next_map] at h
  rcases hx : x.next s with ⟨e | (_ | a), s'⟩
  · rw [hx] at h
    cases h
  · rw [hx] at h
    cases h
    rfl
  · rw [hx] at h
    cases h

theorem next_bind_of_error {x : Search σ ε α} (f : α → Search σ ε β) {s s₁ : σ} {e : ε}
    (hx : x.next s = (.error e, s₁)) : (bind x f).next s = (.error e, s₁) := by
  induction x generalizing s with
  | done => cases hx
  | fail e =>
    cases hx
    rfl
  | yield b rest ih => cases hx
  | act g rest ih => exact ih (g s) hx

/-- Without a first answer nothing is drawn. -/
theorem fold_of_next_none {x : Search σ ε α} {s s₁ : σ} (hx : x.next s = (.ok none, s₁))
    (step : β → α → β × Bool) (acc : β) : fold step x acc s = (.ok acc, s₁) := by
  induction x generalizing s with
  | done =>
    cases hx
    rfl
  | fail e => cases hx
  | yield b rest ih => cases hx
  | act g rest ih => exact ih (g s) hx

/-! ## In parallel -/

/-- Whether two searches act on related states and give related answers. -/
inductive Parallel (E : σ → σ → Prop) (Q : α → β → Prop) : Search σ ε α → Search σ ε β → Prop
  | done : Parallel E Q done done
  | fail (e : ε) : Parallel E Q (fail e) (fail e)
  | yield {a : α} {b : β} (ha : Q a b) {rest : Unit → Search σ ε α} {rest' : Unit → Search σ ε β}
    (h : Parallel E Q (rest ()) (rest' ())) : Parallel E Q (yield a rest) (yield b rest')
  | act {f g : σ → σ} {rest : σ → Search σ ε α} {rest' : σ → Search σ ε β}
    (hf : ∀ s t, E s t → E (f s) (g t))
    (h : ∀ s t, E s t → Parallel E Q (rest (f s)) (rest' (g t))) :
    Parallel E Q (act f rest) (act g rest')

/-- Whether two runs for a first answer come to related ends. -/
inductive Outcome (Q : α → β → Prop) : Except ε (Option α) → Except ε (Option β) → Prop
  | error (e : ε) : Outcome Q (.error e) (.error e)
  | none : Outcome Q (.ok none) (.ok none)
  | some {a : α} {b : β} (h : Q a b) : Outcome Q (.ok (some a)) (.ok (some b))

variable {E : σ → σ → Prop} {Q : α → β → Prop} {x : Search σ ε α} {y : Search σ ε β}

theorem Parallel.append (h : Parallel E Q x y) {rest : Unit → Search σ ε α}
    {rest' : Unit → Search σ ε β} (hr : Parallel E Q (rest ()) (rest' ())) :
    Parallel E Q (append x rest) (append y rest') := by
  induction h with
  | done => exact hr
  | fail e => exact .fail e
  | yield ha _ ih => exact .yield ha ih
  | act hf _ ih => exact .act hf ih

theorem Parallel.bind {P : γ → δ → Prop} (h : Parallel E Q x y) {f : α → Search σ ε γ}
    {g : β → Search σ ε δ} (hf : ∀ a b, Q a b → Parallel E P (f a) (g b)) :
    Parallel E P (bind x f) (bind y g) := by
  induction h with
  | done => exact .done
  | fail e => exact .fail e
  | yield ha _ ih => exact (hf _ _ ha).append ih
  | act hg _ ih => exact .act hg ih

theorem Parallel.map {P : γ → δ → Prop} (h : Parallel E Q x y) {f : α → γ} {g : β → δ}
    (hf : ∀ a b, Q a b → P (f a) (g b)) : Parallel E P (map f x) (map g y) := by
  induction h with
  | done => exact .done
  | fail e => exact .fail e
  | yield ha _ ih => exact .yield (hf _ _ ha) ih
  | act hg _ ih => exact .act hg ih

theorem parallel_ofEach {f : γ → Search σ ε α} {g : γ → Search σ ε β} {cs : List γ}
    (h : ∀ c ∈ cs, Parallel E Q (f c) (g c)) : Parallel E Q (ofEach f cs) (ofEach g cs) := by
  induction cs with
  | nil => exact .done
  | cons c cs ih =>
    obtain ⟨hc, hcs⟩ := List.forall_mem_cons.1 h
    exact hc.append (ih hcs)

/-- Searches in parallel come to related first answers, or both to none, or fail alike. -/
theorem Parallel.next (h : Parallel E Q x y) {s t : σ} (hst : E s t) :
    Outcome Q (x.next s).1 (y.next t).1 ∧ E (x.next s).2 (y.next t).2 := by
  induction h generalizing s t with
  | done => exact ⟨.none, hst⟩
  | fail e => exact ⟨.error e, hst⟩
  | yield ha _ _ => exact ⟨.some ha, hst⟩
  | act hf _ ih => exact ih s t hst (hf s t hst)

end Credence.Search
