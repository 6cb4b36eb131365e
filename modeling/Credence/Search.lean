/-!
# Searches

A search yields answers one at a time and acts on a state in between. Nothing after
an answer happens until the next one is asked for, so a caller that stops early
leaves the rest of the search undone and its actions without effect.
-/

namespace Credence

/-- A search for answers in `α` over a state `σ`, which may fail with an `ε`. -/
inductive Search (σ ε α : Type) where
  | done
  | fail (e : ε)
  | yield (a : α) (rest : Unit → Search σ ε α)
  | act (update : σ → σ) (rest : σ → Search σ ε α)

namespace Search

variable {σ ε α β : Type}

/-- The answers of one search and then those of another. -/
def append : Search σ ε α → (Unit → Search σ ε α) → Search σ ε α
  | done, next => next ()
  | fail e, _ => fail e
  | yield a rest, next => yield a fun u => append (rest u) next
  | act f rest, next => act f fun s => append (rest s) next

/-- For every answer, the answers of the search that it leads to. -/
def bind : Search σ ε α → (α → Search σ ε β) → Search σ ε β
  | done, _ => done
  | fail e, _ => fail e
  | yield a rest, f => append (f a) fun u => bind (rest u) f
  | act g rest, f => act g fun s => bind (rest s) f

/-- Every answer changed by a function. -/
def map (f : α → β) : Search σ ε α → Search σ ε β
  | done => done
  | fail e => fail e
  | yield a rest => yield (f a) fun u => map f (rest u)
  | act g rest => act g fun s => map f (rest s)

/-- The answers of a list. -/
def ofList : List α → Search σ ε α
  | [] => done
  | a :: as => yield a fun _ => ofList as

/-- The answers of the searches of a list, one search after another. -/
def ofEach (f : β → Search σ ε α) : List β → Search σ ε α
  | [] => done
  | b :: bs => append (f b) fun _ => ofEach f bs

/-- Draws answers until a step asks to stop; the flag of the step's result says so. -/
def fold (step : β → α → β × Bool) : Search σ ε α → β → σ → Except ε β × σ
  | done, acc, s => (.ok acc, s)
  | fail e, _, s => (.error e, s)
  | yield a rest, acc, s =>
    match step acc a with
    | (acc, true) => (.ok acc, s)
    | (acc, false) => fold step (rest ()) acc s
  | act f rest, acc, s => fold step (rest (f s)) acc (f s)

/-- The first answer. -/
def next (search : Search σ ε α) (s : σ) : Except ε (Option α) × σ :=
  fold (fun _ a => (some a, true)) search none s

end Search

end Credence
