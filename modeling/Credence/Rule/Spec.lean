import Credence.Document.Schema
import Credence.Rule.Basic
/-!
# Written rules

A written rule or hypothesis is a record of texts and numbers. Reading it checks the
record first and then its patterns: the premises in order, and the conclusion after
them.
-/

namespace Credence

/-- A rule as it is written. -/
structure RuleSpec where
  name : String
  premises : List String
  conclusion : String
  reliability : Float
  description : Option String
  priority : Int
  enabled : Bool
deriving Repr

/-- A hypothesis as it is written. -/
structure HypothesisSpec where
  name : String
  statement : String
  predicts : String
  prior : Float
  requires : List String
deriving Repr

/-- Reads a record with a reader; a misfit is reported under the name of what it should be. -/
def fit {α : Type} (what : String) (r : Reader α) (v : Value) : Except Error α :=
  (r v).mapError fun d => match d with
    | .misfit issues => .unfit what issues
    | .overflow => .overflow

namespace RuleSpec

/-- Reads a written rule. -/
def reader : Reader RuleSpec := Fields.reader <|
  RuleSpec.mk <$> Fields.required ["name"] Reader.name
    <*> Fields.required ["premises"] (Reader.nonEmpty Reader.text)
    <*> Fields.required ["conclusion"] Reader.text
    <*> Fields.withDefault ["reliability"] 1.0 Reader.unit
    <*> Fields.withDefault ["description"] none (Reader.optional Reader.text)
    <*> Fields.withDefault ["priority"] 0 Reader.int
    <*> Fields.withDefault ["enabled"] true Reader.bool

/-- The written rule of a record that is known to be meant as one. -/
def ofRecord (v : Value) : Except Error RuleSpec :=
  (reader v).mapError fun d => match d with
    | .misfit issues => .unfitRecord issues
    | .overflow => .overflow

/-- The record of a written rule. -/
def toValue (s : RuleSpec) : Value :=
  .record [("name", .text s.name), ("premises", Value.texts s.premises),
    ("conclusion", .text s.conclusion), ("reliability", .float s.reliability),
    ("description", Value.ofOption .text s.description), ("priority", .int s.priority),
    ("enabled", .bool s.enabled)]

end RuleSpec

namespace HypothesisSpec

/-- Reads a written hypothesis. -/
def reader : Reader HypothesisSpec := Fields.reader <|
  HypothesisSpec.mk <$> Fields.required ["name"] Reader.name
    <*> Fields.required ["statement"] Reader.text
    <*> Fields.required ["predicts"] Reader.text
    <*> Fields.withDefault ["prior"] 0.5 Reader.unit
    <*> Fields.withDefault ["requires"] [] (Reader.list Reader.text)

/-- The record of a written hypothesis. -/
def toValue (s : HypothesisSpec) : Value :=
  .record [("name", .text s.name), ("statement", .text s.statement),
    ("predicts", .text s.predicts), ("prior", .float s.prior),
    ("requires", Value.texts s.requires)]

end HypothesisSpec

/-- The pattern that a text spells, or the library's error. -/
def parsePattern (s : String) : Except Error Pattern := (Pattern.parse s).mapError .pattern

namespace Rule

/-- The rule that a written rule stands for. -/
def ofSpec (s : RuleSpec) : Except Error Rule := do
  let premises ← s.premises.mapM parsePattern
  let conclusion ← parsePattern s.conclusion
  let r : Rule := ⟨.text s.name, premises, conclusion, .real s.reliability,
    Value.ofOption .text s.description, .int s.priority, s.enabled⟩
  r.check

/-- The rule that a document stands for. -/
def ofValue (v : Value) : Except Error Rule := do
  let spec ← fit "RuleSpec" RuleSpec.reader v
  ofSpec spec

/-- The rule of a record that is already known to be meant as a rule. -/
def ofRecord (v : Value) : Except Error Rule := do
  let spec ← RuleSpec.ofRecord v
  ofSpec spec

/-- The record of a rule. -/
def toRecord (r : Rule) : Value :=
  .record [("name", r.name), ("premises", Value.texts (r.premises.map Pattern.toText)),
    ("conclusion", .text r.conclusion.toText), ("reliability", r.reliability.toValue),
    ("description", r.description), ("priority", r.priority), ("enabled", .bool r.enabled)]

/-- The written form of a rule, which its record has to fit. -/
def toSpec (r : Rule) : Except Error RuleSpec := RuleSpec.ofRecord r.toRecord

end Rule

namespace Hypothesis

/-- The hypothesis that a written hypothesis stands for. -/
def ofSpec (s : HypothesisSpec) : Except Error Hypothesis := do
  let statement ← parsePattern s.statement
  let predicts ← parsePattern s.predicts
  let requires ← s.requires.mapM parsePattern
  return ⟨.text s.name, [statement], predicts, .real s.prior, requires⟩

/-- The hypothesis that a document stands for. -/
def ofValue (v : Value) : Except Error Hypothesis := do
  let spec ← fit "HypothesisSpec" HypothesisSpec.reader v
  ofSpec spec

/-- The record of a hypothesis, with its patterns as texts. -/
def toValue (h : Hypothesis) : Value :=
  .record [("name", h.name), ("statements", Value.texts (h.statements.map Pattern.toText)),
    ("predicts", .text h.predicts.toText), ("prior", h.prior.toValue),
    ("requires", Value.texts (h.requires.map Pattern.toText))]

end Hypothesis

end Credence
