import Credence.Document.Issue
import Credence.Document.Value
import Credence.Number.Numeral
/-!
# Reading documents

A reader turns a document into a typed value, or lists everything that is wrong
with it. Numbers and truth values are read leniently: from texts that name them,
from each other where nothing is lost.

`Fields` describes the fields of a record. Its parts are read independently, so that
all faults are found at once; a field that no part asks for is a fault too. A field
may have a second name, which counts only where the first is absent.
-/

namespace Credence

/-- A value, or what is wrong with the document it was read from. -/
abbrev Checked (α : Type) := Except Defect α

/-- A way to read documents. -/
abbrev Reader (α : Type) := Value → Checked α

namespace Reader

/-- The outcome of a single fault. -/
def fail {α : Type} (f : Fault) : Checked α := .error (.misfit [⟨[], f⟩])

/-- Reads anything. -/
def any : Reader Value := .ok

/-- Whether an integer fits into a word of 64 bits. -/
def isWord (n : Int) : Bool :=
  -Int.ofNat (Number.twos 63) ≤ n && n < Int.ofNat (Number.twos 63)

/-- The integer that a double equals, if it lies inside the words of 64 bits: the least of them is
as far out as the first that is too large. -/
def wordOfFloat? (x : Float) : Option Int :=
  (Number.toInt? x).filter fun n => n.natAbs < Number.twos 63

/-- Reads an integer: a whole number, a truth value, or a text that names one. A number with a
point has to be small enough for a word. -/
def int : Reader Int
  | .int n => .ok n
  | .bool b => .ok (if b then 1 else 0)
  | .float x =>
    if !Number.isFinite x then fail .infiniteInteger
    else match Number.toInt? x with
      | none => fail .fractionalInteger
      | some _ => match wordOfFloat? x with
        | some n => .ok n
        | none => fail .overlongInteger
  | .text s =>
    if Number.isOverlong s.toList then fail .overlongInteger
    else match Number.readInt s with
      | some n => .ok n
      | none => fail .unreadableInteger
  | _ => fail .notAnInteger

/-- Reads a number: a number, a truth value, or a text that names one. -/
def float : Reader Float
  | .float x => .ok x
  | .int n => match Number.ofInt? n with
    | some x => .ok x
    | none => fail .notANumber
  | .bool b => .ok (if b then 1.0 else 0.0)
  | .text s => match Number.readDouble s with
    | some x => .ok x
    | none => fail .unreadableNumber
  | _ => fail .notANumber

/-- The truth values that texts name. -/
def boolWords : List (String × Bool) :=
  [("true", true), ("yes", true), ("on", true), ("t", true), ("y", true), ("1", true),
    ("false", false), ("no", false), ("off", false), ("f", false), ("n", false), ("0", false)]

/-- Reads a truth value: also zero and one, and the words for them. -/
def bool : Reader Bool
  | .bool b => .ok b
  | .text s =>
    match boolWords.find? fun w => w.1 = String.ofList (s.toList.map Char.toLower) with
    | some w => .ok w.2
    | none => fail .unreadableBool
  | .int n =>
    if n = 0 then .ok false
    else if n = 1 then .ok true
    else fail (if isWord n then .unreadableBool else .notABool)
  | .float x => match wordOfFloat? x with
    | some n => if n = 0 then .ok false else if n = 1 then .ok true else fail .unreadableBool
    | none => fail .notABool
  | _ => fail .notABool

/-- Reads a text. -/
def text : Reader String
  | .text s => .ok s
  | _ => fail .notAText

/-- Reads a text that is not empty. -/
def name : Reader String
  | .text s => if s.isEmpty then fail .emptyText else .ok s
  | _ => fail .notAText

/-- Reads a record without looking at its fields. -/
def mapping : Reader Value
  | .record fields => .ok (.record fields)
  | _ => fail .notAMapping

/-- Reads every item of a list, the first at place `i`. -/
def items {α : Type} (r : Reader α) : Nat → List Value → Checked (List α)
  | _, [] => .ok []
  | i, v :: vs =>
    match (r v).mapError (Defect.under (.item i)), items r (i + 1) vs with
    | .ok a, .ok as => .ok (a :: as)
    | .ok _, .error d => .error d
    | .error d, .ok _ => .error d
    | .error d, .error d' => .error (d.both d')

/-- Reads a list. -/
def list {α : Type} (r : Reader α) : Reader (List α)
  | .list vs => items r 0 vs
  | _ => fail .notAList

/-- Reads a value that may be missing. -/
def optional {α : Type} (r : Reader α) : Reader (Option α)
  | .null => .ok none
  | v => (r v).map some

/-- Refuses values that fail a test. -/
def guard {α : Type} (r : Reader α) (f : Fault) (test : α → Bool) : Reader α := fun v => do
  let a ← r v
  if test a then return a else fail f

/-- Reads a list that is not empty. -/
def nonEmpty {α : Type} (r : Reader α) : Reader (List α) :=
  guard (list r) .emptyList fun as => !as.isEmpty

/-- Reads a number from 0 to 1. -/
def unit : Reader Float :=
  guard (guard float .above fun x => x ≤ 1.0) .below fun x => x ≥ 0.0

/-- Reads an integer that is at least `low`. -/
def atLeast (low : Nat) : Reader Nat := fun v => do
  let n ← guard int .below (fun n => n ≥ Int.ofNat low) v
  return n.toNat

end Reader

/-! ## Records -/

/-- Fields of a record that are read together: the fields used, and the value. -/
structure Fields (α : Type) where
  read : List (String × Value) → List String × Checked α

namespace Fields

instance : Functor Fields where
  map f fs := ⟨fun fields => let (used, a) := fs.read fields; (used, a.map f)⟩

instance : Applicative Fields where
  pure a := ⟨fun _ => ([], .ok a)⟩
  seq ff fa := ⟨fun fields =>
    let (used, f) := ff.read fields
    let (used', a) := (fa ()).read fields
    (used ++ used', match f, a with
      | .ok f, .ok a => .ok (f a)
      | .ok _, .error d => .error d
      | .error d, .ok _ => .error d
      | .error d, .error d' => .error (d.both d'))⟩

/-- The name under which a record gives a field: its first name if it can. -/
def present (names : List String) (fields : List (String × Value)) : Option (String × Value) :=
  names.findSome? fun n => (Value.lookup n fields).map fun v => (n, v)

/-- A field that the record may leave out. -/
def withDefault {α : Type} (names : List String) (a : α) (r : Reader α) : Fields α := ⟨fun fields =>
  match present names fields with
  | none => ([], .ok a)
  | some (n, v) => ([n], (r v).mapError (Defect.under (.field n)))⟩

/-- A field that the record has to give. -/
def required {α : Type} (names : List String) (r : Reader α) : Fields α := ⟨fun fields =>
  match present names fields with
  | none => ([], .error (.misfit [⟨[.field (names.headD "")], .missing⟩]))
  | some (n, v) => ([n], (r v).mapError (Defect.under (.field n)))⟩

/-- Reads a record that has the described fields and no others. -/
def reader {α : Type} (fs : Fields α) : Reader α
  | .record fields =>
    let (used, a) := fs.read fields
    let unknown := (fields.filter fun f => !used.contains f.1).map fun f =>
      Issue.mk [.field f.1] .unknownField
    match a with
    | .ok a => if unknown.isEmpty then .ok a else .error (.misfit unknown)
    | .error d => .error (d.both (.misfit unknown))
  | _ => Reader.fail .notARecord

end Fields

end Credence
