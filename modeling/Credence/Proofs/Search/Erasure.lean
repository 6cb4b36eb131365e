import Credence.Proofs.Search.Coverage
/-!
# Searches with more notes

A search may act like another and take notes besides. If the notes do not touch what
the other one reads, both give the same answers in the same order, and their runs end
in states that differ in the notes only.
-/

namespace Credence.Search

variable {σ ε α β : Type}

/-- Whether a search acts like another on related states, with notes in between. -/
inductive Erases (E : σ → σ → Prop) : Search σ ε α → Search σ ε α → Prop
  | done : Erases E done done
  | fail (e : ε) : Erases E (fail e) (fail e)
  | yield (a : α) {rest rest' : Unit → Search σ ε α} (h : Erases E (rest ()) (rest' ())) :
    Erases E (yield a rest) (yield a rest')
  | act {f g : σ → σ} {rest rest' : σ → Search σ ε α} (hf : ∀ s t, E s t → E (f s) (g t))
    (h : ∀ s t, E s t → Erases E (rest s) (rest' t)) : Erases E (act f rest) (act g rest')
  | note {f : σ → σ} {rest : σ → Search σ ε α} {y : Search σ ε α} (hf : ∀ s t, E s t → E (f s) t)
    (h : ∀ s, Erases E (rest s) y) : Erases E (act f rest) y

variable {E : σ → σ → Prop}

theorem Erases.append {x y : Search σ ε α} {next next' : Unit → Search σ ε α}
    (h : Erases E x y) (hn : Erases E (next ()) (next' ())) :
    Erases E (append x next) (append y next') := by
  induction h with
  | done => exact hn
  | fail e => exact .fail e
  | yield a _ ih => exact .yield a ih
  | act hf _ ih => exact .act hf ih
  | note hf _ ih => exact .note hf ih

theorem Erases.bind {x y : Search σ ε α} {f g : α → Search σ ε β} (h : Erases E x y)
    (hf : ∀ a, Erases E (f a) (g a)) : Erases E (bind x f) (bind y g) := by
  induction h with
  | done => exact .done
  | fail e => exact .fail e
  | yield a _ ih => exact (hf a).append ih
  | act hg _ ih => exact .act hg ih
  | note hg _ ih => exact .note hg ih

theorem Erases.map (f : α → β) {x y : Search σ ε α} (h : Erases E x y) :
    Erases E (map f x) (map f y) := by
  induction h with
  | done => exact .done
  | fail e => exact .fail e
  | yield a _ ih => exact .yield (f a) ih
  | act hf _ ih => exact .act hf ih
  | note hf _ ih => exact .note hf ih

theorem erases_ofEach {f g : β → Search σ ε α} (h : ∀ b, Erases E (f b) (g b)) (bs : List β) :
    Erases E (ofEach f bs) (ofEach g bs) := by
  induction bs with
  | nil => exact .done
  | cons b bs ih =>
    unfold ofEach
    exact (h b).append ih

/-- Every answer of the search with notes is one of the other. -/
theorem Erases.yields (hE : ∀ s, E s s) {x y : Search σ ε α} (h : Erases E x y) {a : α}
    (ha : Yields x a) : Yields y a := by
  induction h with
  | done => cases ha
  | fail e => cases ha
  | yield b _ ih =>
    cases ha with
    | here => exact .here
    | later ha => exact .later (ih ha)
  | act _ _ ih =>
    obtain ⟨s, ha⟩ := ha.of_act
    exact .act s (ih s s (hE s) ha)
  | note _ _ ih =>
    obtain ⟨s, ha⟩ := ha.of_act
    exact ih s ha

/-- The actions of the other search move the state as those of the search with notes do. -/
theorem Erases.moves [Inhabited σ] {R R' : σ → σ → Prop} (hE : ∀ s, E s s)
    (hR : ∀ s t u, R s t → E t u → R' s u) {x y : Search σ ε α} (h : Erases E x y)
    (hx : Moves R x) : Moves R' y := by
  induction h with
  | done => exact trivial
  | fail e => exact trivial
  | yield a _ ih => exact ih hx
  | act hf _ ih =>
    exact ⟨fun s => hR _ _ _ (hx.1 s) (hf s s (hE s)), fun s => ih s s (hE s) (hx.2 s)⟩
  | note _ _ ih => exact ih default (hx.2 default)

/-- Runs from related states draw the same and end in related states. -/
theorem Erases.fold {x y : Search σ ε α} (h : Erases E x y) (step : β → α → β × Bool) (acc : β)
    {s t : σ} (hst : E s t) :
    (fold step x acc s).1 = (fold step y acc t).1 ∧
      E (fold step x acc s).2 (fold step y acc t).2 := by
  induction h generalizing acc s t with
  | done => exact ⟨rfl, hst⟩
  | fail e => exact ⟨rfl, hst⟩
  | yield a _ ih =>
    unfold Search.fold
    split
    · exact ⟨rfl, hst⟩
    · exact ih _ hst
  | act hf _ ih => exact ih _ _ (hf s t hst) acc (hf s t hst)
  | note hf _ ih => exact ih _ acc (hf s t hst)

end Credence.Search
