import Credence.Rule.Spec
/-!
# Parameters of reasoning

The bounds and thresholds that every kind of reasoning shares. A written set of
parameters may use the names with capitals inside or those with underscores.
-/

namespace Credence

/-- Bounds and thresholds of reasoning. -/
structure Params where
  /-- The most iterations, levels, rounds or pairs. -/
  maxSteps : Nat
  /-- The least confidence of an accepted conclusion. -/
  threshold : Float
  /-- The most results. -/
  maxResults : Nat
  /-- Whether the confidences of atoms count; otherwise each counts as one. -/
  useUncertainty : Bool
  /-- The time allowed, in seconds. -/
  timeout : Option Float
deriving Repr

namespace Params

/-- The parameters used where none are given. -/
def default : Params := ⟨10, 0.7, 10, true, none⟩

instance : Inhabited Params := ⟨default⟩

/-- Reads written parameters. -/
def reader : Reader Params := Fields.reader <|
  Params.mk <$> Fields.withDefault ["maxSteps", "max_steps"] 10 (Reader.atLeast 1)
    <*> Fields.withDefault ["confidenceThreshold", "confidence_threshold"] 0.7 Reader.unit
    <*> Fields.withDefault ["maxResults", "max_results"] 10 (Reader.atLeast 1)
    <*> Fields.withDefault ["useUncertainty", "use_uncertainty"] true Reader.bool
    <*> Fields.withDefault ["timeoutSeconds", "timeout_seconds"] none
      (Reader.optional (Reader.guard Reader.float .notAbove fun x => x > 0.0))

/-- The parameters of a document; those used by default if there is none. -/
def ofValue : Value → Except Error Params
  | .null => .ok default
  | v => fit "inference parameters" reader v

/-- The record of parameters. -/
def toValue (p : Params) : Value :=
  .record [("maxSteps", .int (Int.ofNat p.maxSteps)), ("confidenceThreshold", .float p.threshold),
    ("maxResults", .int (Int.ofNat p.maxResults)), ("useUncertainty", .bool p.useUncertainty),
    ("timeoutSeconds", Value.ofOption .float p.timeout)]

end Params

/-- A reasoning configuration: parameters, written rules and written hypotheses. -/
structure Config where
  params : Params
  rules : List RuleSpec
  hypotheses : List HypothesisSpec
deriving Repr

namespace Config

/-- Reads a configuration. -/
def reader : Reader Config := Fields.reader <|
  Config.mk <$> Fields.withDefault ["params"] Params.default Params.reader
    <*> Fields.withDefault ["rules"] [] (Reader.list RuleSpec.reader)
    <*> Fields.withDefault ["hypotheses"] [] (Reader.list HypothesisSpec.reader)

/-- The document of a file: one that counts as empty stands for an empty record. -/
def document (v : Value) : Value := if v.isEmpty then .record [] else v

/-- The configuration of a document. -/
def ofValue (v : Value) : Except Error Config := fit "reasoning config" reader (document v)

/-- The record of a configuration. -/
def toValue (c : Config) : Value :=
  .record [("params", c.params.toValue), ("rules", .list (c.rules.map RuleSpec.toValue)),
    ("hypotheses", .list (c.hypotheses.map HypothesisSpec.toValue))]

end Config

end Credence
