import Credence.Search
/-!
# The answers of a search

A search may yield an answer if some way through its actions leads there, whatever
the state was when each action was taken. What all such answers have in common is
found by looking at the parts of a search one by one, and holds of every answer that
a run draws.

A search lists its answers if these are the same from all states of a kind that its
actions do not leave. The lists of its parts make up its own, and a run draws from it.
-/

namespace Credence.Search

variable {σ ε α β γ : Type}

/-- Whether an answer is among those that a search may yield, from any states. -/
inductive Yields : Search σ ε α → α → Prop
  | here {a : α} {rest : Unit → Search σ ε α} : Yields (yield a rest) a
  | later {a b : α} {rest : Unit → Search σ ε α} (h : Yields (rest ()) a) : Yields (yield b rest) a
  | act {a : α} {f : σ → σ} {rest : σ → Search σ ε α} (s : σ) (h : Yields (rest s) a) :
    Yields (act f rest) a

theorem Yields.of_act {f : σ → σ} {rest : σ → Search σ ε α} {a : α}
    (h : Yields (.act f rest) a) : ∃ s, Yields (rest s) a := by
  cases h with
  | act s h => exact ⟨s, h⟩

theorem Yields.of_append {x : Search σ ε α} {next : Unit → Search σ ε α} {a : α}
    (h : Yields (append x next) a) : Yields x a ∨ Yields (next ()) a := by
  induction x with
  | done => exact .inr h
  | fail e => cases h
  | yield b rest ih =>
    unfold append at h
    cases h with
    | here => exact .inl .here
    | later h => exact (ih () h).imp .later id
  | act f rest ih =>
    unfold append at h
    cases h with
    | act s h => exact (ih s h).imp (.act s) id

theorem Yields.of_bind {x : Search σ ε α} {f : α → Search σ ε β} {b : β}
    (h : Yields (bind x f) b) : ∃ a, Yields x a ∧ Yields (f a) b := by
  induction x with
  | done => cases h
  | fail e => cases h
  | yield a rest ih =>
    unfold bind at h
    rcases h.of_append with h | h
    · exact ⟨a, .here, h⟩
    · obtain ⟨c, hc, hb⟩ := ih () h
      exact ⟨c, .later hc, hb⟩
  | act g rest ih =>
    unfold bind at h
    cases h with
    | act s h =>
      obtain ⟨c, hc, hb⟩ := ih s h
      exact ⟨c, .act s hc, hb⟩

theorem Yields.of_map {x : Search σ ε α} {f : α → β} {b : β} (h : Yields (map f x) b) :
    ∃ a, Yields x a ∧ f a = b := by
  induction x with
  | done => cases h
  | fail e => cases h
  | yield a rest ih =>
    unfold map at h
    cases h with
    | here => exact ⟨a, .here, rfl⟩
    | later h =>
      obtain ⟨c, hc, hb⟩ := ih () h
      exact ⟨c, .later hc, hb⟩
  | act g rest ih =>
    unfold map at h
    cases h with
    | act s h =>
      obtain ⟨c, hc, hb⟩ := ih s h
      exact ⟨c, .act s hc, hb⟩

theorem Yields.of_ofEach {f : β → Search σ ε α} {bs : List β} {a : α}
    (h : Yields (ofEach f bs) a) : ∃ b ∈ bs, Yields (f b) a := by
  induction bs with
  | nil => cases h
  | cons b bs ih =>
    unfold ofEach at h
    rcases h.of_append with h | h
    · exact ⟨b, List.mem_cons_self .., h⟩
    · obtain ⟨c, hc, hy⟩ := ih h
      exact ⟨c, List.mem_cons_of_mem _ hc, hy⟩

theorem fold_act (step : β → α → β × Bool) (f : σ → σ) (rest : σ → Search σ ε α) (acc : β) (s : σ) :
    fold step (act f rest) acc s = fold step (rest (f s)) acc (f s) := rfl

/-- What the steps of a drawing keep, for every answer, holds of what is drawn. -/
theorem fold_invariant {step : β → α → β × Bool} {P : β → Prop} {x : Search σ ε α} {acc acc' : β}
    {s s' : σ} (hstep : ∀ acc a, P acc → Yields x a → P (step acc a).1) (hacc : P acc)
    (h : fold step x acc s = (.ok acc', s')) : P acc' := by
  induction x generalizing acc s with
  | done =>
    unfold fold at h
    cases h
    exact hacc
  | fail e =>
    unfold fold at h
    cases h
  | yield a rest ih =>
    unfold fold at h
    have hnext := hstep acc a hacc .here
    split at h
    · next acc₁ hs =>
      cases h
      rw [hs] at hnext
      exact hnext
    · next acc₁ hs =>
      rw [hs] at hnext
      exact ih () (fun acc b hb hy => hstep acc b hb (.later hy)) hnext h
  | act f rest ih =>
    unfold fold at h
    exact ih (f s) (fun acc b hb hy => hstep acc b hb (.act (f s) hy)) hacc h

/-! ## Lists of answers -/

/-- Whether the answers of a search are those of a list, from all states of a kind that it stays in. -/
inductive Lists (I : σ → Prop) : Search σ ε α → List α → Prop
  | done : Lists I done []
  | yield {a : α} {as : List α} {rest : Unit → Search σ ε α} (h : Lists I (rest ()) as) :
    Lists I (yield a rest) (a :: as)
  | act {as : List α} {f : σ → σ} {rest : σ → Search σ ε α} (hf : ∀ s, I s → I (f s))
    (h : ∀ s, I s → Lists I (rest s) as) : Lists I (act f rest) as

/-- What is drawn from a list by steps of which one may be the last. -/
def draw (step : β → α → β × Bool) : List α → β → β
  | [], acc => acc
  | a :: as, acc => if (step acc a).2 then (step acc a).1 else draw step as (step acc a).1

/-- The first of a list is drawn first. -/
theorem draw_first (as : List α) : draw (fun _ a => (some a, true)) as none = as.head? := by
  cases as <;> rfl

variable {I : σ → Prop} {x : Search σ ε α} {as : List α}

theorem Lists.append {next : Unit → Search σ ε α} {bs : List α} (hx : Lists I x as)
    (hn : Lists I (next ()) bs) : Lists I (append x next) (as ++ bs) := by
  induction hx with
  | done => exact hn
  | yield _ ih => exact .yield ih
  | act hf _ ih => exact .act hf ih

theorem lists_ofEach_singleton {f : β → Search σ ε α} {b : β} (h : Lists I (f b) as) :
    Lists I (ofEach f [b]) as := by
  rw [← List.append_nil as]
  exact h.append .done

theorem Lists.map (f : α → β) (hx : Lists I x as) : Lists I (map f x) (as.map f) := by
  induction hx with
  | done => exact .done
  | yield _ ih => exact .yield ih
  | act hf _ ih => exact .act hf ih

theorem Lists.bind {f : α → Search σ ε β} {g : α → List β} (hx : Lists I x as)
    (hf : ∀ a ∈ as, Lists I (f a) (g a)) : Lists I (bind x f) (as.flatMap g) := by
  induction hx with
  | done => exact .done
  | yield _ ih =>
    obtain ⟨ha, has⟩ := List.forall_mem_cons.1 hf
    rw [List.flatMap_cons]
    exact ha.append (ih has)
  | act hs _ ih => exact .act hs fun s h => ih s h hf

/-- A run from a state of the kind draws from the list and ends in such a state. -/
theorem Lists.fold (h : Lists I x as) {s : σ} (hs : I s) (step : β → α → β × Bool) (acc : β) :
    ∃ t, I t ∧ fold step x acc s = (.ok (draw step as acc), t) := by
  induction h generalizing s acc with
  | done => exact ⟨s, hs, rfl⟩
  | @yield a as rest _ ih =>
    unfold Search.fold draw
    rcases hstep : step acc a with ⟨acc', stop⟩
    cases stop with
    | true => exact ⟨s, hs, rfl⟩
    | false => exact ih hs acc'
  | act hf _ ih => exact ih _ (hf s hs) (hf s hs) acc

theorem Lists.next (h : Lists I x as) {s : σ} (hs : I s) :
    ∃ t, I t ∧ x.next s = (.ok as.head?, t) :=
  draw_first as ▸ h.fold hs (fun _ a => (some a, true)) none

end Credence.Search
