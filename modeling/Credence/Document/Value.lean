import Credence.Number.Shortest
import Credence.Text.Literal
/-!
# Documents

Requests, rule files and answers are documents: nested lists and records over
texts, numbers and truth values. An integer and a number with a fraction part are
different documents even where they are equal.

`literal` is the text of a document inside a message.
-/

namespace Credence

/-- A document. -/
inductive Value where
  | null
  | bool (b : Bool)
  | int (n : Int)
  | float (x : Float)
  | text (s : String)
  | list (items : List Value)
  | record (fields : List (String × Value))
deriving Repr, Inhabited

namespace Value

/-- The name of the kind of a document, as messages give it. -/
def kindName : Value → String
  | null => "NoneType"
  | bool _ => "bool"
  | int _ => "int"
  | float _ => "float"
  | text _ => "str"
  | list _ => "list"
  | record _ => "dict"

mutual

/-- The text of a document inside a message. -/
def literal : Value → String
  | null => "None"
  | bool true => "True"
  | bool false => "False"
  | int n => toString n
  | float x => Number.text x
  | text s => Text.literal s
  | list items => "[" ++ ", ".intercalate (literals items) ++ "]"
  | record fields => "\x7b" ++ ", ".intercalate (fieldLiterals fields) ++ "\x7d"

/-- The texts of the items of a list. -/
def literals : List Value → List String
  | [] => []
  | v :: rest => literal v :: literals rest

/-- The texts of the fields of a record. -/
def fieldLiterals : List (String × Value) → List String
  | [] => []
  | (k, v) :: rest => (Text.literal k ++ ": " ++ literal v) :: fieldLiterals rest

end

/-- The text of a document inside a longer one: a text stands for itself. -/
def display : Value → String
  | text s => s
  | v => v.literal

/-- A field of a record. -/
def lookup (key : String) : List (String × Value) → Option Value
  | [] => none
  | (k, v) :: rest => if k = key then some v else lookup key rest

/-- A field of a document that is a record. -/
def field? (v : Value) (key : String) : Option Value :=
  match v with
  | record fields => lookup key fields
  | _ => none

/-- Whether a document counts as empty: no value, zero, or nothing inside. -/
def isEmpty : Value → Bool
  | null => true
  | bool b => !b
  | int n => n == 0
  | float x => x == 0
  | text s => s.isEmpty
  | list items => items.isEmpty
  | record fields => fields.isEmpty

/-- What a document lists: the items of a list, the keys of a record, the characters of a text. -/
def elements : Value → List Value
  | list items => items
  | record fields => fields.map fun f => text f.1
  | text s => s.toList.map fun c => text (String.singleton c)
  | _ => []

/-- A document or nothing. -/
def ofOption {α : Type} (f : α → Value) : Option α → Value
  | none => null
  | some a => f a

/-- A list of texts. -/
def texts (ss : List String) : Value := list (ss.map text)

/-- A list of identifiers. -/
def nats (ns : List Nat) : Value := list (ns.map fun n => int (Int.ofNat n))

end Value

end Credence
