import Credence.Inference.Outcome
import Credence.Number.Mean
import Credence.Params
import Credence.Store.Reference
import Credence.Store.Render
/-!
# Analogy

Two domains are compared pair by pair. Links are similar by kind, number of children
and the kinds of their children; nodes by kind and by the places they take in links.
Pairs above a floor are mapped one to one, the most similar first. The relations of
the source are then carried over to the target, which predicts facts that are not
stored yet.
-/

namespace Credence.Analogy

/-- The links that hold an atom, by kind and place. -/
def signature (s : Store) (id : AtomId) : List (LinkKind × Nat) :=
  distinct <| (s.linksOver id).flatMap fun link =>
    match (s.get? link).map Atom.form with
    | some (.link k out) => (out.zipIdx.filter fun p => p.1 = id).map fun p => (k, p.2)
    | _ => []

/-- The share of common items in two lists without repetitions. -/
def overlap (a b : List (LinkKind × Nat)) : Float :=
  let common := (a.filter fun x => b.contains x).length
  let total := a.length + b.length - common
  if total = 0 then 0.0 else Float.ofNat common / Float.ofNat total

/-- The number of places where two lists hold atoms of one kind. -/
def agreeing (s : Store) (out out' : List AtomId) : Nat :=
  (out.zip out').countP fun p => (s.get? p.1).map Atom.kind = (s.get? p.2).map Atom.kind

/-- How similar two atoms are in shape, from 0 to 1. -/
def similarity (s : Store) (a b : Atom) : Float :=
  let sameKind : Float := if a.kind = b.kind then 0.5 else 0.0
  match a.form, b.form with
  | .node _ _, .node _ _ => sameKind + 0.5 * overlap (signature s a.id) (signature s b.id)
  | .link _ out, .link _ out' =>
    let sameArity := if out.length = out'.length then sameKind + 0.25 else sameKind
    let widest := max out.length out'.length
    if widest = 0 then sameArity + 0.25
    else sameArity + 0.25 * Float.ofNat (agreeing s out out') / Float.ofNat widest
  | _, _ => 0.0

/-- A pair that was mapped. -/
structure Mapped where
  source : Atom
  target : Atom
  similarity : Float
  confidence : Float
deriving Repr

/-- A fact that the source suggests for the target. -/
structure Prediction where
  statement : String
  confidence : Float
  basedOn : String
deriving Repr

/-- The findings of a run. -/
structure Result where
  outcome : Outcome
  source : List String
  target : List String
  analogies : List Value
  predictions : List Prediction
  similarity : Float
deriving Repr

/-- The confidence that an atom counts with. -/
def confidenceOf (useUncertainty : Bool) (a : Atom) : Float :=
  if useUncertainty then a.truth.confidence else 1.0

/-- All pairs of two lists with their places, the first list's order first. -/
def pairs (sources targets : List Atom) : List ((Atom × Nat) × (Atom × Nat)) :=
  sources.zipIdx.flatMap fun a => targets.zipIdx.map fun b => (a, b)

/-- A pair that is similar enough, with its places. -/
structure Scored where
  similarity : Float
  source : Atom × Nat
  target : Atom × Nat

/-- The order of assignment: the more similar pair first, then by places. -/
def Scored.before (x y : Scored) : Bool :=
  if x.similarity > y.similarity then true
  else if x.similarity < y.similarity then false
  else if x.source.2 ≠ y.source.2 then x.source.2 ≤ y.source.2
  else x.target.2 ≤ y.target.2

/-- Maps pairs in order where both sides are free; the flag tells that the cap left one out. -/
def assign (params : Params) : List Scored → List Nat → List Nat → List Mapped →
    List Mapped × Bool
  | [], _, _, done => (done, false)
  | x :: xs, usedS, usedT, done =>
    if usedS.contains x.source.2 || usedT.contains x.target.2 then assign params xs usedS usedT done
    else if done.length ≥ params.maxResults then (done, true)
    else
      let confidence := x.similarity *
        min (confidenceOf params.useUncertainty x.source.1)
          (confidenceOf params.useUncertainty x.target.1)
      assign params xs (x.source.2 :: usedS) (x.target.2 :: usedT)
        (done ++ [⟨x.source.1, x.target.1, x.similarity, confidence⟩])

/-- What each mapped source node becomes: from mapped nodes, then from the slots of mapped links. -/
def correspondences (s : Store) (ms : List Mapped) : Table AtomId (AtomId × Float) :=
  let byNode := ms.foldl (fun t m =>
    if m.source.form.isNode then t.insert m.source.id (m.target.id, m.similarity) else t)
    Table.empty
  ms.foldl (fun t m =>
    match m.source.form, m.target.form with
    | .link _ out, .link _ out' =>
      if out.length ≠ out'.length then t
      else (out.zip out').foldl (fun t p =>
        match (s.get? p.1).map Atom.form, (s.get? p.2).map Atom.form with
        | some (.node k _), some (.node l _) =>
          if k = l && !t.contains p.1 then t.insert p.1 (p.2, m.similarity) else t
        | _, _ => t) t
    | _, _ => t) byNode

/-- The children of a source link carried over: mapped, or kept if they are predicates. The
similarities of the mapped ones go along. -/
def carry (s : Store) (map : Table AtomId (AtomId × Float)) :
    List AtomId → Option (List AtomId × List Float)
  | [] => some ([], [])
  | ref :: refs =>
    match map.get? ref with
    | some (ref, x) => (carry s map refs).map fun r => (ref :: r.1, x :: r.2)
    | none =>
      match (s.get? ref).map Atom.form with
      | some (.node .predicate _) => (carry s map refs).map fun r => (ref :: r.1, r.2)
      | _ => none

/-- Predicts the facts that the source links suggest and the store does not hold. -/
def project (s : Store) (params : Params) (map : Table AtomId (AtomId × Float)) :
    List Atom → List Prediction → Except Error (List Prediction)
  | [], done => .ok done
  | a :: rest, done =>
    match a.form with
    | .node _ _ => project s params map rest done
    | .link k out =>
      match carry s map out with
      | none => project s params map rest done
      | some (children, xs) =>
        if xs.isEmpty || (s.findLink k children).isSome then project s params map rest done
        else do
          let trees ← children.mapM s.toPattern
          let text := (Pattern.link (.link k) trees).toText
          if done.any fun p => p.statement = text then project s params map rest done
          else if done.length ≥ params.maxResults then return done
          else
            let basedOn ← s.toText a.id
            let confidence := confidenceOf params.useUncertainty a * Number.mean xs
            project s params map rest (done ++ [⟨text, confidence, basedOn⟩])

/-- The elements that a mapped pair sets side by side: names, or the texts of the children. A
link has no name to set beside that of a node. -/
def elements (s : Store) (m : Mapped) : Except Error (Table String Value) :=
  match m.source.form, m.target.form with
  | .node _ name, .node _ name' => .ok (Table.empty.insert name (.text name'))
  | .node _ name, .link _ _ => .ok (Table.empty.insert name .null)
  | .link _ out, target => do
    let ps ← (out.zip target.outgoing).mapM fun p => do
      let a ← s.toText p.1
      let b ← s.toText p.2
      return (a, Value.text b)
    return Table.ofList ps

/-- The record of a mapped pair. -/
def mappedValue (s : Store) (m : Mapped) : Except Error Value := do
  let source ← s.toText m.source.id
  let target ← s.toText m.target.id
  let mapping ← elements s m
  return .record [("sourceElement", .text source), ("targetElement", .text target),
    ("sourceId", .int (Int.ofNat m.source.id)), ("targetId", .int (Int.ofNat m.target.id)),
    ("similarity", .float m.similarity),
    ("mapping", .record mapping.entries),
    ("confidence", .float m.confidence)]

/-- The pairs compared: as many as the bound on steps allows; the flag tells that some were left. -/
def compared (params : Params) (sources targets : List Atom) :
    List ((Atom × Nat) × (Atom × Nat)) × Bool :=
  let all := pairs sources targets
  (all.take params.maxSteps, all.length > params.maxSteps)

/-- Maps a source domain onto a target domain and predicts what the target lacks. -/
def reason (s : Store) (source target : List AtomId) (params : Params) (floor : Float) :
    Except Error Result := do
  let sources := source.filterMap s.get?
  let targets := target.filterMap s.get?
  let sourceTexts ← s.toTexts source
  let targetTexts ← s.toTexts target
  let (tried, cut) := compared params sources targets
  let scored := (tried.map fun p => Scored.mk (similarity s p.1.1 p.2.1) p.1 p.2).filter
    fun x => x.similarity ≥ floor
  let (mapped, capped) := assign params (scored.mergeSort Scored.before) [] [] []
  let analogies ← mapped.mapM (mappedValue s)
  let predictions ← project s params (correspondences s mapped) sources []
  let overall := if mapped.isEmpty then 0.0 else Number.mean (mapped.map Mapped.similarity)
  return ⟨⟨cut || capped, false, tried.length⟩, sourceTexts, targetTexts, analogies, predictions,
    overall⟩

/-- The record of a prediction. -/
def Prediction.toValue (p : Prediction) : Value :=
  .record [("prediction", .text p.statement), ("confidence", .float p.confidence),
    ("basedOn", .text p.basedOn)]

/-- The record of a result. -/
def Result.toValue (r : Result) : Value :=
  r.outcome.record "analogicalReasoning"
    [("sourceDomain", Value.texts r.source), ("targetDomain", Value.texts r.target),
      ("analogies", .list r.analogies), ("predictions", .list (r.predictions.map Prediction.toValue)),
      ("structuralSimilarity", .float r.similarity)]

end Credence.Analogy
