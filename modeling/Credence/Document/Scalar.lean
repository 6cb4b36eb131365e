import Credence.Document.Value
import Credence.Number.Double
/-!
# Numbers as they are given

A document gives a number as a whole one, as one with a point, or as a truth value,
which counts as zero or one. The form is kept, as it shows when the number is given
back; numbers of all forms are compared exactly.
-/

namespace Credence

/-- A number in the form in which it was given. -/
inductive Scalar where
  | whole (n : Int)
  | real (x : Float)
  | flag (b : Bool)
deriving Repr

namespace Scalar

instance : Inhabited Scalar := ⟨whole 0⟩

/-- The number of a count. -/
def ofNat (n : Nat) : Scalar := whole (Int.ofNat n)

/-- The document of a number. -/
def toValue : Scalar → Value
  | whole n => .int n
  | real x => .float x
  | flag b => .bool b

/-- The number of a document. -/
def ofValue? : Value → Option Scalar
  | .int n => some (whole n)
  | .float x => some (real x)
  | .bool b => some (flag b)
  | _ => none

/-- The double nearest to a number; beyond the largest one the infinity of its sign. -/
def toFloat : Scalar → Float
  | whole n => (Number.ofInt? n).getD (if n < 0 then -1.0 / 0.0 else 1.0 / 0.0)
  | real x => x
  | flag b => if b then 1.0 else 0.0

/-- The exact value of a number, as numerator and denominator, if it has one. -/
def ratio? : Scalar → Option (Int × Nat)
  | whole n => some (n, 1)
  | real x => Number.ratio? x
  | flag b => some (if b then 1 else 0, 1)

/-- Whether a number is less than another one. -/
def isLess (a b : Scalar) : Bool :=
  match a.ratio?, b.ratio? with
  | some (m, k), some (n, l) => decide (m * Int.ofNat l < n * Int.ofNat k)
  | some _, none => 0.0 < b.toFloat
  | none, some _ => a.toFloat < 0.0
  | none, none => a.toFloat < b.toFloat

/-- Whether a number is at most another one. -/
def isAtMost (a b : Scalar) : Bool :=
  match a.ratio?, b.ratio? with
  | some (m, k), some (n, l) => decide (m * Int.ofNat l ≤ n * Int.ofNat k)
  | some _, none => 0.0 < b.toFloat
  | none, some _ => a.toFloat < 0.0
  | none, none => a.toFloat ≤ b.toFloat

/-- Whether a number lies between zero and one. -/
def isUnit (a : Scalar) : Bool := (whole 0).isAtMost a && a.isAtMost (whole 1)

/-- The least integer that is not less than a number, if the number is finite. -/
def ceil? (a : Scalar) : Option Int := a.ratio?.map fun (n, k) => -((-n).fdiv (Int.ofNat k))

theorem ofValue?_toValue (a : Scalar) : ofValue? a.toValue = some a := by
  cases a <;> rfl

end Scalar

end Credence
