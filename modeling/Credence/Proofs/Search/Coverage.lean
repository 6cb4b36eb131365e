import Credence.Proofs.Search.Answers
/-!
# What a search does not miss

A search finds an answer of some kind if, whatever happens to the state between its
answers, it gives one or ends in a state that says it was cut short. The state may
only change along a relation that keeps such a mark, and the actions of searches have
to follow it too. So what one part of a search finds is found by the whole, and a run
that draws all answers sees it.
-/

namespace Credence.Search

variable {σ ε α β : Type}

/-- Changes of the state that lose no mark. -/
structure Lasting (R : σ → σ → Prop) (Cut : σ → Prop) : Prop where
  refl : ∀ s, R s s
  trans : ∀ {s t u}, R s t → R t u → R s u
  keeps : ∀ {s t}, R s t → Cut s → Cut t

/-- Whether all actions of a search change the state along a relation. -/
def Moves (R : σ → σ → Prop) : Search σ ε α → Prop
  | done => True
  | fail _ => True
  | yield _ rest => Moves R (rest ())
  | act f rest => (∀ s, R s (f s)) ∧ ∀ s, Moves R (rest s)

/-- Whether a search from a state gives a wanted answer or ends marked, whatever changes the state
between its answers. A search that fails owes nothing. -/
def Finds (R : σ → σ → Prop) (Cut : σ → Prop) (Q : α → σ → Prop) : Search σ ε α → σ → Prop
  | done, s => Cut s
  | fail _, _ => True
  | yield a rest, s => Q a s ∨ ∀ t, R s t → Finds R Cut Q (rest ()) t
  | act f rest, s => Finds R Cut Q (rest (f s)) (f s)

variable {R : σ → σ → Prop} {Cut : σ → Prop}

/-! ## Actions -/

theorem Moves.append {x : Search σ ε α} {next : Unit → Search σ ε α} (hx : Moves R x)
    (hn : Moves R (next ())) : Moves R (append x next) := by
  induction x with
  | done => exact hn
  | fail e => exact trivial
  | yield a rest ih => exact ih () hx
  | act f rest ih => exact ⟨hx.1, fun s => ih s (hx.2 s)⟩

theorem Moves.bind {x : Search σ ε α} {f : α → Search σ ε β} (hx : Moves R x)
    (hf : ∀ a, Moves R (f a)) : Moves R (bind x f) := by
  induction x with
  | done => exact trivial
  | fail e => exact trivial
  | yield a rest ih => exact (hf a).append (ih () hx)
  | act g rest ih => exact ⟨hx.1, fun s => ih s (hx.2 s)⟩

theorem Moves.map {x : Search σ ε α} (f : α → β) (hx : Moves R x) : Moves R (map f x) := by
  induction x with
  | done => exact trivial
  | fail e => exact trivial
  | yield a rest ih => exact ih () hx
  | act g rest ih => exact ⟨hx.1, fun s => ih s (hx.2 s)⟩

theorem moves_ofEach {f : β → Search σ ε α} {bs : List β} (h : ∀ b ∈ bs, Moves R (f b)) :
    Moves R (ofEach f bs) := by
  induction bs with
  | nil => exact trivial
  | cons b bs ih =>
    unfold ofEach
    exact (h b (List.mem_cons_self ..)).append (ih fun c hc => h c (List.mem_cons_of_mem _ hc))

/-- A run ends in a state that its start leads to. -/
theorem Moves.fold (hR : Lasting R Cut) {step : β → α → β × Bool} {x : Search σ ε α}
    (hx : Moves R x) (acc : β) (s : σ) : R s (fold step x acc s).2 := by
  induction x generalizing acc s with
  | done => exact hR.refl s
  | fail e => exact hR.refl s
  | yield a rest ih =>
    unfold Search.fold
    split
    · exact hR.refl s
    · exact ih () hx _ s
  | act f rest ih => exact hR.trans (hx.1 s) (ih (f s) (hx.2 (f s)) acc (f s))

/-! ## Answers -/

variable {Q : α → σ → Prop}

/-- A search that starts marked ends marked. -/
theorem finds_of_cut (hR : Lasting R Cut) {x : Search σ ε α} (hx : Moves R x) {s : σ}
    (hs : Cut s) : Finds R Cut Q x s := by
  induction x generalizing s with
  | done => exact hs
  | fail e => exact trivial
  | yield a rest ih => exact .inr fun t ht => ih () hx (hR.keeps ht hs)
  | act f rest ih => exact ih (f s) (hx.2 (f s)) (hR.keeps (hx.1 s) hs)

theorem Finds.append_left (hR : Lasting R Cut) {x : Search σ ε α} {next : Unit → Search σ ε α}
    (hn : Moves R (next ())) {s : σ} (hx : Finds R Cut Q x s) : Finds R Cut Q (append x next) s := by
  induction x generalizing s with
  | done => exact finds_of_cut hR hn hx
  | fail e => exact trivial
  | yield a rest ih =>
    rcases hx with hq | hrest
    · exact .inl hq
    · exact .inr fun t ht => ih () (hrest t ht)
  | act f rest ih => exact ih (f s) hx

theorem Finds.append_right (hR : Lasting R Cut) {x : Search σ ε α} {next : Unit → Search σ ε α}
    (hx : Moves R x) {s : σ} (hn : ∀ t, R s t → Finds R Cut Q (next ()) t) :
    Finds R Cut Q (append x next) s := by
  induction x generalizing s with
  | done => exact hn s (hR.refl s)
  | fail e => exact trivial
  | yield a rest ih => exact .inr fun t ht => ih () hx fun u hu => hn u (hR.trans ht hu)
  | act f rest ih =>
    exact ih (f s) (hx.2 (f s)) fun t ht => hn t (hR.trans (hx.1 s) ht)

theorem Finds.bind {Q' : β → σ → Prop} (hR : Lasting R Cut) {x : Search σ ε β}
    {f : β → Search σ ε α} (hx : Moves R x) (hf : ∀ b, Moves R (f b))
    (hq : ∀ b s, Q' b s → Finds R Cut Q (f b) s) {s : σ} (h : Finds R Cut Q' x s) :
    Finds R Cut Q (bind x f) s := by
  induction x generalizing s with
  | done => exact h
  | fail e => exact trivial
  | yield b rest ih =>
    rcases h with hb | hrest
    · exact (hq b s hb).append_left hR (Moves.bind (x := rest ()) hx hf)
    · exact .append_right hR (hf b) fun t ht => ih () hx (hrest t ht)
  | act g rest ih => exact ih (g s) (hx.2 (g s)) h

theorem Finds.mono {Q' : α → σ → Prop} (hq : ∀ a s, Q' a s → Q a s) {x : Search σ ε α} {s : σ}
    (h : Finds R Cut Q' x s) : Finds R Cut Q x s := by
  induction x generalizing s with
  | done => exact h
  | fail e => exact trivial
  | yield b rest ih => exact h.imp (hq b s) fun hrest t ht => ih () (hrest t ht)
  | act g rest ih => exact ih (g s) h

theorem Finds.map {Q' : β → σ → Prop} {x : Search σ ε β} {f : β → α}
    (hq : ∀ b s, Q' b s → Q (f b) s) {s : σ} (h : Finds R Cut Q' x s) :
    Finds R Cut Q (map f x) s := by
  induction x generalizing s with
  | done => exact h
  | fail e => exact trivial
  | yield b rest ih =>
    rcases h with hb | hrest
    · exact .inl (hq b s hb)
    · exact .inr fun t ht => ih () (hrest t ht)
  | act g rest ih => exact ih (g s) h

theorem finds_ofEach (hR : Lasting R Cut) {f : β → Search σ ε α} {bs : List β}
    (hf : ∀ b ∈ bs, Moves R (f b)) {b : β} (hb : b ∈ bs) {s : σ}
    (h : ∀ t, R s t → Finds R Cut Q (f b) t) : Finds R Cut Q (ofEach f bs) s := by
  induction bs generalizing s with
  | nil => cases hb
  | cons c cs ih =>
    have hcs : ∀ d ∈ cs, Moves R (f d) := fun d hd => hf d (List.mem_cons_of_mem _ hd)
    unfold ofEach
    rcases List.mem_cons.1 hb with rfl | hb
    · exact (h s (hR.refl s)).append_left hR (moves_ofEach hcs)
    · refine .append_right hR (hf c (List.mem_cons_self ..)) fun t ht => ?_
      exact ih hcs hb fun u hu => h u (hR.trans ht hu)

/-- A run of a search that finds a wanted answer ends as a found answer or an early stop makes it
end, or it ends marked. -/
theorem Finds.fold (hR : Lasting R Cut) {step : β → α → β × Bool} {I P S : β → Prop}
    {x : Search σ ε α} (hI : ∀ acc a, I acc → Yields x a → I (step acc a).1)
    (hstop : ∀ acc a, (step acc a).2 = true → S (step acc a).1)
    (hkeep : ∀ acc a, P acc → Yields x a → P (step acc a).1) (hPS : ∀ acc, P acc → S acc)
    (hfound : ∀ acc a s, I acc → Yields x a → Q a s → P (step acc a).1) {acc acc' : β} {s s' : σ}
    (hacc : I acc) (h : Finds R Cut Q x s) (hrun : Search.fold step x acc s = (.ok acc', s')) :
    S acc' ∨ Cut s' := by
  induction x generalizing acc s with
  | done =>
    unfold Search.fold at hrun
    cases hrun
    exact .inr h
  | fail e =>
    unfold Search.fold at hrun
    cases hrun
  | yield a rest ih =>
    have hnext := hI acc a hacc .here
    have hstopped := hstop acc a
    have hwanted : Q a s → P (step acc a).1 := hfound acc a s hacc .here
    unfold Search.fold at hrun
    split at hrun
    · next acc₁ hs =>
      cases hrun
      rw [hs] at hstopped
      exact .inl (hstopped rfl)
    · next acc₁ hs =>
      rw [hs] at hwanted hnext
      -- Either this answer is the wanted one and stays, or a later one is.
      rcases h with hq | hlater
      · have hend := fold_invariant (fun acc b hp hy => hkeep acc b hp (.later hy)) (hwanted hq) hrun
        exact .inl (hPS _ hend)
      · exact ih () (fun acc b hb hy => hI acc b hb (.later hy))
          (fun acc b hb hy => hkeep acc b hb (.later hy))
          (fun acc b s hb hy => hfound acc b s hb (.later hy)) hnext (hlater s (hR.refl s)) hrun
  | act f rest ih =>
    unfold Search.fold at hrun
    exact ih (f s) (fun acc b hb hy => hI acc b hb (.act (f s) hy))
      (fun acc b hb hy => hkeep acc b hb (.act (f s) hy))
      (fun acc b s' hb hy => hfound acc b s' hb (.act (f s) hy)) hacc h hrun

end Credence.Search
