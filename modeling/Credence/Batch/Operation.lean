import Credence.Engine.Task
import Credence.Store.Assert
import Credence.Store.Written
/-!
# Operations

A request names an operation and gives its fields. It is read as a whole before
anything is done; a request that does not fit changes nothing.
-/

namespace Credence

/-- What a request asks for. -/
inductive Operation where
  | addAtom (kind : String) (name : Option String) (outgoing : List Int) (truth : Value)
  | queryAtoms (text : String) (kind : Option String) (limit : Nat)
  | patternMatch (pattern : String) (limit : Nat)
  | getTruthValue (id : Int)
  | setTruthValue (id : Int) (truth : Value)
  | infer (strategy : String) (params inputs : Value)

namespace Operation

/-! ## Reading requests -/

/-- The field that names the operation; it was looked at before. -/
def nameField : Fields Value := Fields.required ["operation"] Reader.any

/-- The most results of a request. -/
def limitField : Fields Nat :=
  Fields.withDefault ["maxResults", "max_results"] 100 (Reader.atLeast 0)

/-- A record that may be missing. -/
def mappingField (name : String) : Fields Value :=
  Fields.withDefault [name] .null fun v =>
    (Reader.optional Reader.mapping v).map fun r => r.getD .null

/-- The fields of each operation. -/
def readers : List (String × Reader Operation) :=
  [("addAtom", Fields.reader <|
      (fun _ kind name outgoing truth => addAtom kind name (outgoing.getD []) truth) <$> nameField
        <*> Fields.required ["atomType", "atom_type"] Reader.text
        <*> Fields.withDefault ["atomName", "atom_name"] none (Reader.optional Reader.text)
        <*> Fields.withDefault ["outgoing"] none (Reader.optional (Reader.list Reader.int))
        <*> Fields.withDefault ["truthValue", "truth_value"] .null Reader.any),
    ("queryAtoms", Fields.reader <|
      (fun _ => queryAtoms) <$> nameField
        <*> Fields.withDefault ["query"] "" Reader.text
        <*> Fields.withDefault ["atomType", "atom_type"] none (Reader.optional Reader.text)
        <*> limitField),
    ("patternMatch", Fields.reader <|
      (fun _ => patternMatch) <$> nameField <*> Fields.required ["pattern"] Reader.text
        <*> limitField),
    ("getTruthValue", Fields.reader <|
      (fun _ => getTruthValue) <$> nameField
        <*> Fields.required ["atomId", "atom_id"] Reader.int),
    ("setTruthValue", Fields.reader <|
      (fun _ => setTruthValue) <$> nameField
        <*> Fields.required ["atomId", "atom_id"] Reader.int
        <*> Fields.required ["truthValue", "truth_value"] Reader.any),
    ("infer", Fields.reader <|
      (fun _ => infer) <$> nameField <*> Fields.required ["strategy"] Reader.text
        <*> mappingField "params" <*> mappingField "inputs")]

/-- The operation that a request describes. -/
def ofValue (v : Value) : Except Error Operation :=
  match v with
  | .record fields =>
    let name := (Value.lookup "operation" fields).getD .null
    let found := match name with
      | .text n => readers.find? fun r => r.1 = n
      | _ => none
    match found with
    | some (n, reader) => fit (n ++ " request") reader v
    | none => .error (.unknownOperation name)
  | v => .error (.notARequest v.kindName)

/-! ## Carrying them out -/

/-- A text, or nothing. -/
def textOr (s : Option String) : Value := Value.ofOption .text s

/-- The record of a new atom. -/
def added (a : Atom) : Value :=
  let name := match a.form with
    | .node _ n => Value.text n
    | .link _ _ => .null
  .record [("atomId", .int (Int.ofNat a.id)), ("atomType", .text a.kind.name), ("atomName", name),
    ("outgoing", .list a.written), ("truthValue", a.truth.toValue), ("success", .bool true)]

/-- The record of a match. -/
def matchValue (s : Store) (number : Nat) (m : Finding) : Except Error Value := do
  let text ← s.toText m.atomId
  let truth := (s.get? m.atomId).map Atom.truth
  return .record [("matchId", .int (Int.ofNat number)), ("atomId", .int (Int.ofNat m.atomId)),
    ("atom", .text text), ("bindings", .record m.bindings.entries),
    ("truthValue", Value.ofOption Truth.toValue truth)]

/-- The records of matches, numbered from one. -/
def matchValues (s : Store) (ms : List Finding) : Except Error (List Value) :=
  (ms.zipIdx 1).mapM fun m => matchValue s m.2 m.1

/-- Carries out an operation and gives its record. -/
def perform (e : Engine) : Operation → StoreM Value
  | addAtom kind name outgoing truth => do
    let id ← Store.add (.text kind) (textOr name) (outgoing.map .int) truth
    let s ← get
    return Value.ofOption added (s.get? id)
  | queryAtoms text kind limit => do
    let found ← Reading.run fun s => Reading.queryWritten s text (textOr kind) (.ofNat limit)
    return .record [("query", .text text), ("atoms", .list (found.map Atom.toValue)),
      ("count", .int (Int.ofNat found.length))]
  | patternMatch pattern limit => do
    let found ← Reading.run fun s =>
      Reading.findWritten s (.text pattern) (some (.ofNat limit))
    let s ← get
    let values ← (matchValues s found : Except Error (List Value))
    return .record [("pattern", .text pattern), ("matches", .list values),
      ("matchCount", .int (Int.ofNat found.length))]
  | getTruthValue id => do
    let s ← get
    let a ← (s.atomOf (.int id) : Except Error Atom)
    return .record [("atomId", .int id), ("truthValue", a.truth.toValue)]
  | setTruthValue id truth => do
    let old ← Store.setTruthValue (.int id) truth
    let s ← get
    let a ← (s.atomOf (.int id) : Except Error Atom)
    return .record [("atomId", .int id), ("previousTruthValue", old.toValue),
      ("truthValue", a.truth.toValue), ("success", .bool true)]
  | infer strategy params inputs => Reading.run (e.infer (.text strategy) params inputs)

end Operation

/-- Carries out a written request. -/
def Engine.execute (e : Engine) (request : Value) : StoreM Value := do
  let op ← (Operation.ofValue request : Except Error Operation)
  op.perform e

end Credence
