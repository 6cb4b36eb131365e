import Credence.Distinct
import Credence.Text.Order
/-!
# Cycles of precedence

Claims that one event comes before another form a graph. A cycle in it is searched in
depth, labels and neighbours in order: the path from the current start is a stack of
labels with the neighbours still to visit, and a neighbour that stands on the path
closes a cycle.
-/

namespace Credence.Precedence

/-- The claim that the first label comes before the second. -/
abbrev Edge := String × String

/-- The labels that come right after a label, in order. -/
def successors (edges : List Edge) (label : String) : List String :=
  Text.sorted (distinct ((edges.filter fun e => e.1 = label).map Prod.snd))

/-- The labels that come before another one, in order. -/
def sources (edges : List Edge) : List String := Text.sorted (distinct (edges.map Prod.fst))

/-- A label on the path, and its neighbours still to visit. -/
structure Visit where
  label : String
  pending : List String

/-- The labels of a path, its start first. -/
def labels (path : List Visit) : List String := (path.map Visit.label).reverse

/-- The number of sources that were not visited. -/
def unseen (edges : List Edge) (seen : List String) : Nat :=
  differing ((edges.map Prod.fst).filter fun l => l ∉ seen)

/-- The neighbours still to visit on a path, each label counted as one more. -/
def work : List Visit → Nat
  | [] => 0
  | v :: path => v.pending.length + 1 + work path

theorem unseen_cons_lt {edges : List Edge} {seen : List String} {label : String}
    (hsource : label ∈ edges.map Prod.fst) (hseen : label ∉ seen) :
    unseen edges (label :: seen) < unseen edges seen := by
  refine differing_lt (List.mem_filter.2 ⟨hsource, by simpa using hseen⟩) fun x hx => ?_
  simp only [List.mem_filter, List.mem_cons, decide_eq_true_eq, not_or] at hx ⊢
  exact ⟨⟨hx.1, hx.2.2⟩, hx.2.1⟩

/-- Extends the path, its newest visit first, until a cycle closes. Gives the labels that were
seen if none does. -/
def follow (edges : List Edge) : List Visit → List String → Except (List String) (List String)
  | [], seen => .ok seen
  | ⟨_, []⟩ :: path, seen => follow edges path seen
  | ⟨l, next :: pending⟩ :: path, seen =>
    let here := labels (⟨l, pending⟩ :: path)
    if next ∈ here then .error ((here.dropWhile fun x => x ≠ next) ++ [next])
    else if next ∈ edges.map Prod.fst ∧ next ∉ seen then
      follow edges (⟨next, successors edges next⟩ :: ⟨l, pending⟩ :: path) (next :: seen)
    else follow edges (⟨l, pending⟩ :: path) seen
termination_by path seen => (unseen edges seen, work path)
decreasing_by
  · exact Prod.Lex.right _ (by simp [work])
  · exact Prod.Lex.left _ _ (unseen_cons_lt (And.left ‹_›) (And.right ‹_›))
  · exact Prod.Lex.right _ (by simp [work])

/-- Searches from each label that was not seen. -/
def searchFrom (edges : List Edge) : List String → List String → Option (List String)
  | [], _ => none
  | l :: ls, seen =>
    if l ∈ seen then searchFrom edges ls seen
    else match follow edges [⟨l, successors edges l⟩] (l :: seen) with
      | .error cycle => some cycle
      | .ok seen => searchFrom edges ls seen

/-- A cycle of the graph: its labels along the edges, the first one also at the end. -/
def cycle? (edges : List Edge) : Option (List String) := searchFrom edges (sources edges) []

end Credence.Precedence
