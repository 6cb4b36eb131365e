import Credence.Search
/-!
# Searches with changed answers

Changing every answer of a search by a function goes through the ways that searches are
put together, and a drawing whose steps go along with the change draws the changed
answers from the changed search.
-/

namespace Credence.Search

variable {σ ε α β γ δ : Type}

theorem map_append (f : α → β) (x : Search σ ε α) (next : Unit → Search σ ε α) :
    map f (append x next) = append (map f x) fun u => map f (next u) := by
  induction x with
  | done => rfl
  | fail e => rfl
  | yield a rest ih => exact congrArg (yield (f a)) (funext ih)
  | act g rest ih => exact congrArg (act g) (funext ih)

theorem map_bind (f : β → γ) (x : Search σ ε α) (g : α → Search σ ε β) :
    map f (bind x g) = bind x fun a => map f (g a) := by
  induction x with
  | done => rfl
  | fail e => rfl
  | yield a rest ih => exact (map_append f (g a) _).trans (congrArg _ (funext ih))
  | act h rest ih => exact congrArg (act h) (funext ih)

theorem bind_map (f : α → β) (x : Search σ ε α) (g : β → Search σ ε γ) :
    bind (map f x) g = bind x fun a => g (f a) := by
  induction x with
  | done => rfl
  | fail e => rfl
  | yield a rest ih => exact congrArg (append (g (f a))) (funext ih)
  | act h rest ih => exact congrArg (act h) (funext ih)

theorem map_map (f : α → β) (g : β → γ) (x : Search σ ε α) :
    map g (map f x) = map (fun a => g (f a)) x := by
  induction x with
  | done => rfl
  | fail e => rfl
  | yield a rest ih => exact congrArg (yield (g (f a))) (funext ih)
  | act h rest ih => exact congrArg (act h) (funext ih)

theorem map_ofEach (f : α → β) (g : γ → Search σ ε α) (cs : List γ) :
    map f (ofEach g cs) = ofEach (fun c => map f (g c)) cs := by
  induction cs with
  | nil => rfl
  | cons c cs ih => exact (map_append f (g c) _).trans (congrArg _ (funext fun _ => ih))

theorem ofEach_map (f : γ → δ) (g : δ → Search σ ε α) (cs : List γ) :
    ofEach g (cs.map f) = ofEach (fun c => g (f c)) cs := by
  induction cs with
  | nil => rfl
  | cons c cs ih => exact congrArg (append (g (f c))) (funext fun _ => ih)

theorem ofEach_congr {f g : γ → Search σ ε α} {cs : List γ} (h : ∀ c ∈ cs, f c = g c) :
    ofEach f cs = ofEach g cs := by
  induction cs with
  | nil => rfl
  | cons c cs ih =>
    obtain ⟨hc, hcs⟩ := List.forall_mem_cons.1 h
    unfold ofEach
    rw [hc, ih hcs]

/-- Steps that go along with a change of the answers and of what is drawn draw the same changed. -/
theorem fold_map {step : β → α → β × Bool} {step' : δ → γ → δ × Bool} {f : α → γ} {g : β → δ}
    (h : ∀ acc a, step' (g acc) (f a) = (g (step acc a).1, (step acc a).2))
    (x : Search σ ε α) (acc : β) (s : σ) :
    fold step' (map f x) (g acc) s =
      ((fold step x acc s).1.map g, (fold step x acc s).2) := by
  induction x generalizing acc s with
  | done => rfl
  | fail e => rfl
  | yield a rest ih =>
    unfold map fold
    rw [h]
    cases step acc a with
    | mk next stop =>
      cases stop with
      | true => rfl
      | false => exact ih () next s
  | act k rest ih => exact ih (k s) acc (k s)

theorem next_map (f : α → β) (x : Search σ ε α) (s : σ) :
    (map f x).next s = ((x.next s).1.map (Option.map f), (x.next s).2) :=
  fold_map (g := Option.map f) (fun _ _ => rfl) x none s

end Credence.Search
