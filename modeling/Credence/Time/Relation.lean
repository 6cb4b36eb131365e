import Credence.Number.Numeral
import Credence.Text.Blank
import Credence.Text.LowerCase
/-!
# Relations of intervals

How two intervals lie to each other is one of thirteen relations. It is told by
comparing their four ends, which may be moments of any kind: numbers, or instants. An
interval without length that shares an end with a longer one is placed by that end: it
starts the longer one, or finishes it.

The comparisons are made one after another, and each relies on those before it. Where
the ends are in order the relation is what its name says; ends that are not, such as
instants in an hour that the clocks of their zone repeat, get a relation all the same.
-/

namespace Credence

/-- An interval: its first and its last moment, numbers unless another kind is named. -/
structure Interval (α : Type := Int) where
  start : α
  stop : α
deriving Repr, DecidableEq

/-- How one interval lies to another. -/
inductive Relation where
  | before
  | after
  | meets
  | metBy
  | overlaps
  | overlappedBy
  | starts
  | startedBy
  | during
  | contains
  | finishes
  | finishedBy
  | equals
deriving Repr, DecidableEq

namespace Relation

/-- The relations. -/
def all : List Relation :=
  [before, after, meets, metBy, overlaps, overlappedBy, starts, startedBy, during, contains,
    finishes, finishedBy, equals]

/-- The name of a relation. -/
def name : Relation → String
  | before => "before"
  | after => "after"
  | meets => "meets"
  | metBy => "met_by"
  | overlaps => "overlaps"
  | overlappedBy => "overlapped_by"
  | starts => "starts"
  | startedBy => "started_by"
  | during => "during"
  | contains => "contains"
  | finishes => "finishes"
  | finishedBy => "finished_by"
  | equals => "equals"

/-- The relation of the second interval to the first. -/
def inverse : Relation → Relation
  | before => after
  | after => before
  | meets => metBy
  | metBy => meets
  | overlaps => overlappedBy
  | overlappedBy => overlaps
  | starts => startedBy
  | startedBy => starts
  | during => contains
  | contains => during
  | finishes => finishedBy
  | finishedBy => finishes
  | equals => equals

/-- The family that a relation belongs to. -/
def family : Relation → String
  | before | after | meets | metBy => "temporal_precedence"
  | overlaps | overlappedBy => "temporal_overlap"
  | starts | startedBy | during | contains | finishes | finishedBy => "temporal_containment"
  | equals => "temporal_equality"

/-- The relation of interval `a` to interval `b`. -/
def between {α : Type} [LT α] [DecidableLT α] [BEq α] (a b : Interval α) : Relation :=
  if a.stop < b.start then before
  else if b.stop < a.start then after
  else if a.start == b.start ∧ a.stop == b.stop then equals
  else if a.start == b.start then if a.stop < b.stop then starts else startedBy
  else if a.stop == b.stop then if a.start > b.start then finishes else finishedBy
  else if a.stop == b.start then meets
  else if b.stop == a.start then metBy
  else if a.start > b.start ∧ a.stop < b.stop then during
  else if a.start < b.start ∧ a.stop > b.stop then contains
  else if a.start < b.start then overlaps
  else overlappedBy

/-! ## Names as they are written -/

/-- Puts an underscore between a small letter and the capital after it. -/
def splitCapitals : List Char → List Char
  | a :: b :: rest =>
    if ('a' ≤ a && a ≤ 'z') && ('A' ≤ b && b ≤ 'Z') then a :: '_' :: splitCapitals (b :: rest)
    else a :: splitCapitals (b :: rest)
  | cs => cs

/-- The name that a written name stands for: words in small letters, joined by underscores. -/
def normalize (s : String) : String :=
  let cs := splitCapitals (Text.trim s).toList
  Text.lower (String.ofList (cs.map fun c => if c = '-' || c = ' ' then '_' else c))

/-- The relation of a written name. -/
def ofName? (s : String) : Option Relation :=
  let n := normalize s
  all.find? fun r => r.name = n

theorem inverse_inverse (r : Relation) : r.inverse.inverse = r := by cases r <;> rfl

end Relation

end Credence
