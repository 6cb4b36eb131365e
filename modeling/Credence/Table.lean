/-!
# Tables in order of insertion

A finite map kept as a list of pairs: a new key goes to the end, a key that is
already there keeps its place when its value is replaced. Every order that a
result shows (bindings, pending conclusions, groups of facts) is this order.

`get?_insert` says what an insertion does to a lookup, `keys_insert` what it does
to the order of the keys.
-/

namespace Credence

/-- A finite map from `κ` to `α`, in order of insertion. -/
structure Table (κ : Type) (α : Type) where
  entries : List (κ × α)
deriving Repr, DecidableEq

namespace Table

variable {κ : Type} {α : Type} {β : Type}

/-- The table without entries. -/
def empty : Table κ α := ⟨[]⟩

instance : Inhabited (Table κ α) := ⟨empty⟩

instance : EmptyCollection (Table κ α) := ⟨empty⟩

/-- The keys, in order of insertion. -/
def keys (t : Table κ α) : List κ := t.entries.map Prod.fst

/-- The values, in the order of their keys. -/
def values (t : Table κ α) : List α := t.entries.map Prod.snd

/-- The number of entries. -/
def size (t : Table κ α) : Nat := t.entries.length

/-- Applies a function to every value. -/
def map (f : α → β) (t : Table κ α) : Table κ β := ⟨t.entries.map fun e => (e.1, f e.2)⟩

variable [DecidableEq κ]

/-- The value of the first entry with this key. -/
def find (k : κ) : List (κ × α) → Option α
  | [] => none
  | (k', a) :: rest => if k' = k then some a else find k rest

/-- The value stored for a key. -/
def get? (t : Table κ α) (k : κ) : Option α := find k t.entries

/-- Whether a key has a value. -/
def contains (t : Table κ α) (k : κ) : Bool := (t.get? k).isSome

/-- Replaces the value of a key in place, or appends the pair. -/
def put (k : κ) (a : α) : List (κ × α) → List (κ × α)
  | [] => [(k, a)]
  | (k', a') :: rest => if k' = k then (k, a) :: rest else (k', a') :: put k a rest

/-- Stores a value for a key. -/
def insert (t : Table κ α) (k : κ) (a : α) : Table κ α := ⟨put k a t.entries⟩

/-- Changes the value of a key, starting from `none` when it has none. -/
def alter (t : Table κ α) (k : κ) (f : Option α → α) : Table κ α := t.insert k (f (t.get? k))

/-- The table that stores the pairs of a list one after another. -/
def ofList (pairs : List (κ × α)) : Table κ α := pairs.foldl (fun t p => t.insert p.1 p.2) empty

theorem find_put (k k' : κ) (a : α) (es : List (κ × α)) :
    find k' (put k a es) = if k = k' then some a else find k' es := by
  induction es with
  | nil => simp [put, find]
  | cons e es ih =>
    obtain ⟨j, b⟩ := e
    by_cases hj : j = k
    · subst hj
      by_cases hk : j = k' <;> simp [put, find, hk]
    · by_cases hk : k = k'
      · subst hk
        simp [put, find, hj, ih]
      · simp [put, find, hj, hk, ih]

/-- An insertion answers for its own key and leaves the others alone. -/
theorem get?_insert (t : Table κ α) (k k' : κ) (a : α) :
    (t.insert k a).get? k' = if k = k' then some a else t.get? k' :=
  find_put k k' a t.entries

@[simp] theorem get?_empty (k : κ) : (empty : Table κ α).get? k = none := rfl

theorem find_eq_none_iff (k : κ) (es : List (κ × α)) :
    find k es = none ↔ k ∉ es.map Prod.fst := by
  induction es with
  | nil => simp [find]
  | cons e es ih =>
    obtain ⟨j, b⟩ := e
    by_cases hj : j = k
    · simp [find, hj]
    · have hj' : ¬ k = j := fun h => hj h.symm
      simp [find, hj, hj', ih]

theorem keys_put (k : κ) (a : α) (es : List (κ × α)) :
    (put k a es).map Prod.fst =
      if k ∈ es.map Prod.fst then es.map Prod.fst else es.map Prod.fst ++ [k] := by
  induction es with
  | nil => simp [put]
  | cons e es ih =>
    obtain ⟨j, b⟩ := e
    by_cases hj : j = k
    · simp [put, hj]
    · have hj' : ¬ k = j := fun h => hj h.symm
      simp only [put, if_neg hj, List.map_cons, ih, List.mem_cons, hj', false_or]
      split <;> simp

/-- A new key goes to the end; a known key keeps its place. -/
theorem keys_insert (t : Table κ α) (k : κ) (a : α) :
    (t.insert k a).keys = if k ∈ t.keys then t.keys else t.keys ++ [k] :=
  keys_put k a t.entries

end Table

end Credence
