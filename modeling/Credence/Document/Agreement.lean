import Credence.Document.Scalar
/-!
# Agreement of documents

Documents agree if they say the same: numbers by their exact values in whatever form
they are given, records field by field in any order. What is no number, the `nan`
among the doubles, agrees with nothing, not even with itself.
-/

namespace Credence

/-- Whether two numbers are equal. -/
def Scalar.agrees (a b : Scalar) : Bool := a.isAtMost b && b.isAtMost a

namespace Value

mutual

/-- Whether two documents agree. -/
def agrees : Value → Value → Bool
  | null, null => true
  | text s, text t => s == t
  | list vs, list ws => agreesItems vs ws
  | record fs, record gs => fs.length == gs.length && agreesFields gs fs
  | v, w =>
    match Scalar.ofValue? v, Scalar.ofValue? w with
    | some a, some b => a.agrees b
    | _, _ => false

/-- Whether the items of two lists agree in order. -/
def agreesItems : List Value → List Value → Bool
  | [], [] => true
  | v :: vs, w :: ws => agrees v w && agreesItems vs ws
  | _, _ => false

/-- Whether each of the fields agrees with the field of its name in a record. -/
def agreesFields (record : List (String × Value)) : List (String × Value) → Bool
  | [] => true
  | (k, v) :: rest =>
    (match lookup k record with
      | some w => agrees v w
      | none => false) && agreesFields record rest

end

end Value

end Credence
