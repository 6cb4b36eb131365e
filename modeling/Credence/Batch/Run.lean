import Credence.Batch.Operation
/-!
# Batches

A batch carries out requests in order, so that later ones see what earlier ones
added. A strict batch ends at the first request that fails; a tolerant one records
the failure with the place of the request and goes on.
-/

namespace Credence

/-- What a batch does about a request that fails. -/
inductive BatchMode where
  | strict
  | tolerant
deriving Repr, DecidableEq

/-- The mode that a document names. -/
def BatchMode.ofValue (v : Value) : Except Error BatchMode :=
  match v with
  | .text "strict" => .ok strict
  | .text "tolerant" => .ok tolerant
  | _ => .error (.unknownMode v)

namespace Batch

/-- The outcome of one request: its record, or its failure and its place in the batch. -/
inductive Entry where
  | done (v : Value)
  | failed (e : Error) (index : Nat)

/-- Whether a request failed. -/
def Entry.isFailure : Entry → Bool
  | done _ => false
  | failed _ _ => true

/-- The record of an entry. -/
def Entry.toValue : Entry → Value
  | done v => v
  | failed e index => .record [("error", .text e.message), ("errorType", .text e.family),
      ("index", .int (Int.ofNat index))]

/-- Carries out requests, the first of them at place `index`. -/
def runFrom (e : Engine) (mode : BatchMode) : Nat → List Value → StoreM (List Entry)
  | _, [] => return []
  | index, request :: requests => do
    let entry ← tryCatch (Entry.done <$> e.execute request) fun error =>
      if mode = .tolerant && error.isRecorded then return .failed error index else throw error
    let entries ← runFrom e mode (index + 1) requests
    return entry :: entries

/-- Carries out the requests of a batch. -/
def run (e : Engine) (mode : BatchMode) (requests : List Value) : StoreM (List Entry) :=
  runFrom e mode 0 requests

/-- The report of a batch: an entry for each request, and how many failed and succeeded. -/
def report (entries : List Entry) : Value :=
  let errors := entries.countP Entry.isFailure
  .record [("results", .list (entries.map Entry.toValue)), ("errors", .int (Int.ofNat errors)),
    ("succeeded", .int (Int.ofNat (entries.length - errors)))]

end Batch

end Credence
