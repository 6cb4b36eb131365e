import Credence.Deadline
import Credence.Inference.Outcome
import Credence.Inference.Proof
import Credence.Params
import Credence.Pattern.Variant
import Credence.Rule.Base
import Credence.Search
import Credence.Store.Match
/-!
# Backward chaining

A goal is proven by a stored fact, most confident first, or by a rule whose
conclusion unifies with it and whose premises are proven in turn, depth first. A
goal that is already open above does not use rules again, and goals below a given
depth are not tried.

Proofs are drawn until one is confident enough; the most confident one is reported.
If there is none, the first rule that applies to the goal explains how far it came.
-/

namespace Credence.Backward

/-- What a search counts and notes on its way. -/
structure State where
  polls : Nat
  expired : Bool
  expansions : Nat
  fresh : Nat
  lookups : Nat
  boundReached : Bool
  incomplete : Bool
deriving Repr, Inhabited

/-- The state before a search. -/
def State.start : State := ⟨0, false, 0, 0, 0, false, false⟩

/-- What a search is about: facts, rules, bounds and the time allowed. -/
structure Problem where
  store : Store
  rules : RuleBase
  params : Params
  deadline : Deadline

/-- Searches of the prover. -/
abbrev Proving (α : Type) := Search State Error α

/-- Polls the deadline. -/
def State.poll (d : Deadline) (s : State) : State :=
  let (expired, polls) := d.poll s.polls
  { s with polls, expired, incomplete := s.incomplete || expired }

/-- The confidence of an atom. -/
def Problem.confidence (pb : Problem) (id : AtomId) : Float :=
  if pb.params.useUncertainty then
    match pb.store.get? id with
    | some a => a.truth.confidence
    | none => 0.0
  else 1.0

/-- The stored facts tried for a goal, most confident first. -/
def Problem.facts (pb : Problem) (goal : Pattern) : Except Error (List Match) :=
  (pb.store.matchesOf goal).map fun ms =>
    (ms.take pb.params.maxResults).mergeSort fun m m' =>
      decide (pb.confidence m'.atomId ≤ pb.confidence m.atomId)

/-- The bindings of a match added to a substitution, as trees. -/
def extend (s : Store) (θ : Substitution) (b : Bindings) : Except Error Substitution :=
  b.entries.foldlM (fun θ e => (s.toPattern e.2).map fun p => θ.insert e.1 p) θ

/-- The proof of a goal by one stored fact. -/
def Problem.byFact (pb : Problem) (goal : Pattern) (θ : Substitution) (depth : Nat) (m : Match) :
    Proving (Substitution × Proof) :=
  match extend pb.store θ m.bindings with
  | .error e => .fail e
  | .ok θ => .yield (θ, .node (θ.apply goal) (pb.confidence m.atomId) depth .fact []) fun _ => .done

/-- The proofs of a list of goals under one substitution, given the proofs of one. -/
def proveAll (prove : Pattern → Substitution → Proving (Substitution × Proof)) :
    List Pattern → Substitution → Proving (Substitution × List Proof)
  | [], θ => .yield (θ, []) fun _ => .done
  | g :: gs, θ => (prove g θ).bind fun (θ, p) =>
    (proveAll prove gs θ).map fun (θ, ps) => (θ, p :: ps)

/-- The node that a rule and the proofs of its premises make. -/
def byRule (r : Rule) (goal : Pattern) (depth : Nat) (θ : Substitution) (ps : List Proof) : Proof :=
  .node (θ.apply goal) (Proof.least (ps.map Proof.confidence) * r.reliability.toFloat) depth
    (.rule r.name) ps

/-- The proofs of a goal at a depth with `levels` levels left, one of them its own. -/
def Problem.prove (pb : Problem) :
    Nat → Nat → List String → Pattern → Substitution → Proving (Substitution × Proof)
  | levels, depth, open_, goal, θ =>
    .act (State.poll pb.deadline) fun s =>
      if s.expired then .done
      else match levels with
        | 0 => .act (fun s => { s with boundReached := true }) fun _ => .done
        | levels + 1 =>
          let current := θ.apply goal
          let key := current.variantKey
          let found := Store.lookupsFor current .empty
          .act (fun s => { s with expansions := s.expansions + 1, lookups := s.lookups + found })
            fun _ =>
              match pb.facts current with
              | .error e => .fail e
              | .ok ms =>
                (Search.ofEach (pb.byFact current θ depth) ms).append fun _ =>
                  if open_.contains key then .done
                  else .act (fun s => { s with fresh := s.fresh + 1 }) fun s =>
                    Search.ofEach
                      (fun r =>
                        match Unification.unify current r.conclusion θ with
                        | none => .done
                        | some θ =>
                          (proveAll (pb.prove levels (depth + 1) (key :: open_)) r.premises θ).map
                            fun (θ, ps) => (θ, byRule r current depth θ ps))
                      (pb.rules.rulesFor current (toString s.fresh ++ "_"))

/-- A goal of the report. -/
structure Subgoal where
  goal : Pattern
  proven : Bool
  confidence : Float
  depth : Nat
  source : Option Source
deriving Repr

/-- The findings of a run. -/
structure Result where
  outcome : Outcome
  goal : Pattern
  subgoals : List Subgoal
  steps : List Proof
  goalProven : Bool
  confidence : Float
  bindings : Table String Pattern
deriving Repr

/-- The best proof drawn so far, the number drawn, and whether the cap on proofs was met. -/
structure Drawn where
  best : Option (Substitution × Proof × Float)
  count : Nat
  capped : Bool

/-- Keeps a proof if it is better than the best one; stops at the threshold or at the cap. -/
def Drawn.step (params : Params) (d : Drawn) (answer : Substitution × Proof) : Drawn × Bool :=
  let confidence := answer.2.weakest
  let (best, top) := match d.best with
    | none => ((answer.1, answer.2, confidence), confidence)
    | some b => if confidence > b.2.2 then ((answer.1, answer.2, confidence), confidence)
      else (b, b.2.2)
  let count := d.count + 1
  if top ≥ params.threshold then (⟨some best, count, false⟩, true)
  else if count ≥ params.maxResults then (⟨some best, count, true⟩, true)
  else (⟨some best, count, false⟩, false)

/-- Proves premises one after another up to the first that has no proof. -/
def Problem.provePremises (pb : Problem) (key : String) :
    List Pattern → Substitution → State → Except Error (Option Pattern × List Proof) × State
  | [], _, s => (.ok (none, []), s)
  | g :: gs, θ, s =>
    match (pb.prove pb.params.maxSteps 1 [key] g θ).next s with
    | (.error e, s) => (.error e, s)
    | (.ok none, s) => (.ok (some (θ.apply g), []), s)
    | (.ok (some (θ, p)), s) =>
      match pb.provePremises key gs θ s with
      | (.error e, s) => (.error e, s)
      | (.ok (failed, ps), s) => (.ok (failed, p :: ps), s)

/-- What could not be proven of a goal without proofs, and what could. -/
def Problem.explain (pb : Problem) (goal : Pattern) (s : State) :
    Except Error (List Subgoal × List Proof) × State :=
  let root : Subgoal := ⟨goal, false, 0.0, 0, none⟩
  match pb.rules.rulesFor goal "why_" with
  | [] => (.ok ([root], []), s)
  | r :: _ =>
    match Unification.unify goal r.conclusion .empty with
    | none => (.ok ([root], []), s)
    | some θ =>
      match pb.provePremises goal.variantKey r.premises θ s with
      | (.error e, s) => (.error e, s)
      | (.ok (none, ps), s) => (.ok ([root], ps), s)
      | (.ok (some g, ps), s) =>
        (.ok ([root, ⟨g, false, 0.0, 1, some (.rule r.name)⟩], ps), s)

/-- The goals below the root of a proof, or the root itself if a fact proves it. -/
def subgoalsOf (p : Proof) : List Subgoal :=
  let nodes := if p.children.isEmpty then [p] else p.preorder.drop 1
  nodes.map fun n => ⟨n.goal, true, n.confidence, n.depth, some n.source⟩

/-- Searches for a proof of a goal and reports the best one, or why there is none. -/
def Problem.report (pb : Problem) (goal : Pattern) (s : State) : Except Error Result × State :=
  let search := pb.prove (pb.params.maxSteps + 1) 0 [] goal .empty
  match search.fold (Drawn.step pb.params) ⟨none, 0, false⟩ s with
  | (.error e, s) => (.error e, s)
  | (.ok drawn, s) =>
    let s := { s with boundReached := s.boundReached || drawn.capped }
    match drawn.best with
    | some (θ, p, confidence) =>
      (.ok ⟨⟨s.boundReached, s.incomplete, s.expansions⟩, goal, subgoalsOf p, p.postorder,
        confidence ≥ pb.params.threshold, confidence, θ.resolve goal.vars⟩, s)
    | none =>
      match pb.explain goal s with
      | (.error e, s) => (.error e, s)
      | (.ok (subgoals, ps), s) =>
        (.ok ⟨⟨s.boundReached, s.incomplete, s.expansions⟩, goal, subgoals,
          Proof.postorderList ps, false, 0.0, .empty⟩, s)

/-- Chains backward from a goal. -/
def chain (store : Store) (rules : RuleBase) (goal : Pattern) (params : Params) (clock : Clock) :
    Reading Result := do
  let (result, s) := (Problem.mk store rules params ⟨params.timeout, clock⟩).report goal .start
  Reading.count s.lookups
  result

/-- The record of a goal. -/
def Subgoal.toValue (g : Subgoal) : Value :=
  .record [("goal", .text g.goal.toText), ("status", .text (if g.proven then "proven" else "unproven")),
    ("confidence", .float g.confidence), ("depth", .int (Int.ofNat g.depth)),
    ("source", Value.ofOption (fun s => .text s.toText) g.source)]

/-- The record of a step of a proof. -/
def stepValue (number : Nat) (p : Proof) : Value :=
  .record [("step", .int (Int.ofNat number)), ("goal", .text p.goal.toText),
    ("proof", .text p.describe), ("confidence", .float p.confidence)]

/-- The record of a result. -/
def Result.toValue (r : Result) : Value :=
  r.outcome.record "backwardChaining"
    [("goalQuery", .text r.goal.toText), ("subgoals", .list (r.subgoals.map Subgoal.toValue)),
      ("proofSteps", .list (r.steps.mapIdx fun i p => stepValue (i + 1) p)),
      ("goalProven", .bool r.goalProven), ("overallConfidence", .float r.confidence),
      ("bindings", .record (r.bindings.entries.map fun e => (e.1, .text e.2.toText)))]

end Credence.Backward
